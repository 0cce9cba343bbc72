import Mathlib
import ElmScope.Settings

/-! The settings under several layers. What is taken from a reader is that it lays the layers over
each other in their order, and that an object whose keys are plain identifiers, no two of them alike
in lower case, gives a name what stands under the key of that lower case. The final value of a field
is then the one of the strongest layer that defines it, and the settings are the final values
converted. What a weaker layer says of a field that a stronger one defines does not matter, be it of
the field's type or not. -/
namespace ElmScope.Settings

inductive Field where
  | hover
  | syntaxDiagnostics
  | autoImportCompletions
  | qualifiedCompletions
  | completionLimit
deriving DecidableEq, Repr

namespace Field

def name : Field → String
  | hover => "hover"
  | syntaxDiagnostics => "syntax_diagnostics"
  | autoImportCompletions => "auto_import_completions"
  | qualifiedCompletions => "qualified_completions"
  | completionLimit => "completion_limit"

def default : Field → Value
  | completionLimit => .integer 100
  | _ => .bool true

/-- What a field holds: a limit or a switch. -/
def Content : Field → Type
  | completionLimit => Nat
  | _ => Bool

instance : (f : Field) → DecidableEq f.Content
  | completionLimit => inferInstanceAs (DecidableEq Nat)
  | hover | syntaxDiagnostics | autoImportCompletions | qualifiedCompletions =>
    inferInstanceAs (DecidableEq Bool)

def get (s : Settings) : (f : Field) → f.Content
  | hover => s.hover
  | syntaxDiagnostics => s.syntaxDiagnostics
  | autoImportCompletions => s.autoImportCompletions
  | qualifiedCompletions => s.qualifiedCompletions
  | completionLimit => s.completionLimit

/-- Contents of all fields make up settings. -/
theorem exists_get_eq (content : (f : Field) → f.Content) :
    ∃ s : Settings, ∀ f, get s f = content f :=
  ⟨⟨content .hover, content .syntaxDiagnostics, content .autoImportCompletions,
    content .qualifiedCompletions, content .completionLimit⟩, fun f => by cases f <;> rfl⟩

end Field

/-- What a client forces: one that shows no hovers switches them off. -/
def Client.forced? : Client → Field → Option Value
  | .withoutHover, .hover => some (.bool false)
  | _, _ => none

namespace Reader

/-- A value as the content of a field. -/
def convert? (reader : Reader) : (f : Field) → Value → Option f.Content
  | .completionLimit => reader.toLimit?
  | .hover | .syntaxDiagnostics | .autoImportCompletions | .qualifiedCompletions => reader.toBool?

/-- The keys of an object are plain identifiers, and no two of them are alike in lower case. -/
structure ArePlain (reader : Reader) (fields : Layer) : Prop where
  identifiers : ∀ field ∈ fields, field.1.toList.all isIdentifierChar = true
  apart : fields.Pairwise fun one other => reader.lower one.1 ≠ reader.lower other.1

/-- What an object defines under a name: the value under the key of that lower case, unless the
reader takes the value to define nothing. -/
def given? (reader : Reader) (fields : Layer) (name : String) : Option Value :=
  (fields.find? fun field => reader.lower field.1 = name && reader.defines field.2).map (·.2)

/-- What is taken from a reader. -/
structure IsLayered (reader : Reader) : Prop where
  /-- A name in lower case is its own lower case. -/
  lower_eq : ∀ name : String, (name.toList.all fun c => c.isLower || c = '_') = true →
    reader.lower name = name
  /-- Only an object may define nothing. -/
  defines : ∀ value, (∀ fields, value ≠ .object fields) → reader.defines value = true
  /-- Every file has to hold an object. The objects are laid over the defaults in their order, and
  the overrides over all of them. -/
  build?_eq : ∀ defaults files overrides, reader.build? defaults files overrides =
    (files.mapM reader.object?).map fun objects =>
      (objects ++ [overrides]).foldl
        (fun table fields => reader.overlay table (reader.table fields)) (reader.table defaults)
  /-- What is laid over a table takes the place of what the table has. -/
  get?_overlay : ∀ lower upper name,
    reader.get? (reader.overlay lower upper) name =
      (reader.get? upper name).or (reader.get? lower name)
  /-- A plain object gives what it defines. -/
  get?_table : ∀ fields, reader.ArePlain fields → ∀ name,
    reader.get? (reader.table fields) name = reader.given? fields name

/-- A file that is there holds an object. -/
def Holds (reader : Reader) (file : Option reader.File) (object : Option Layer) : Prop :=
  file.map reader.object? = object.map some

/-- What a field is given over the file of the user. -/
def givenLater? (reader : Reader) (workspace : Option Layer) (client : Client) (f : Field) :
    Option Value :=
  (client.forced? f).or (workspace.bind (reader.given? · f.name))

/-- The value of the strongest layer that defines a field: the client before the file of the
workspace, that before the file of the user, and the default last. -/
def finalValue (reader : Reader) (user workspace : Option Layer) (client : Client) (f : Field) :
    Value :=
  ((reader.givenLater? workspace client f).or (user.bind (reader.given? · f.name))).getD f.default

variable {reader : Reader} {user workspace : Option Layer} {table : reader.Table} {s : Settings}

/-! ### One layer -/

theorem IsLayered.lower_name (h : reader.IsLayered) (f : Field) : reader.lower f.name = f.name :=
  h.lower_eq f.name (by cases f <;> decide)

theorem defaultLayer_eq :
    defaultLayer = [Field.hover, .syntaxDiagnostics, .autoImportCompletions, .qualifiedCompletions,
      .completionLimit].map fun f => (f.name, f.default) := rfl

/-- The defaults are plain, as their keys are written in lower case. -/
theorem IsLayered.arePlain_defaultLayer (h : reader.IsLayered) : reader.ArePlain defaultLayer := by
  refine ⟨by decide, ?_⟩
  rw [defaultLayer_eq, List.pairwise_map]
  simp only [h.lower_name]
  decide

/-- The layer of defaults gives every field its default. -/
theorem IsLayered.given?_defaultLayer (h : reader.IsLayered) (f : Field) :
    reader.given? defaultLayer f.name = some f.default := by
  have hDefines (f : Field) : reader.defines f.default = true :=
    h.defines f.default (by cases f <;> simp [Field.default])
  rw [given?, defaultLayer_eq, List.find?_map]
  simp only [Function.comp_def, h.lower_name, hDefines, Bool.and_true]
  cases f <;> rfl

theorem arePlain_clientLayer (client : Client) : reader.ArePlain client.layer := by
  cases client with
  | withoutHover => exact ⟨by decide, List.pairwise_singleton _ _⟩
  | silent => exact ⟨by decide, .nil⟩
  | withHover => exact ⟨by decide, .nil⟩

/-- A client forces a field exactly by what its layer gives. -/
theorem IsLayered.given?_clientLayer (h : reader.IsLayered) (client : Client) (f : Field) :
    reader.given? client.layer f.name = client.forced? f := by
  cases client with
  | withoutHover =>
      have hDefines : reader.defines (.bool false) = true := h.defines _ (by simp)
      have hLower : reader.lower "hover" = "hover" := h.lower_name .hover
      cases f <;> simp [given?, Client.layer, Client.forced?, hLower, hDefines, Field.name]
  | silent => rfl
  | withHover => rfl

/-- One more layer: it counts where it gives a name a value. -/
theorem IsLayered.get?_overlay_table (h : reader.IsLayered) {fields : Layer}
    (hPlain : reader.ArePlain fields) (table : reader.Table) (name : String) :
    reader.get? (reader.overlay table (reader.table fields)) name =
      (reader.given? fields name).or (reader.get? table name) := by
  rw [h.get?_overlay, h.get?_table fields hPlain]

/-! ### All layers -/

/-- Many layers over a table: the last that gives a name a value counts. -/
theorem IsLayered.get?_foldl (h : reader.IsLayered) {layers : List Layer}
    (hPlain : ∀ fields ∈ layers, reader.ArePlain fields) (table : reader.Table) (name : String) :
    reader.get? (layers.foldl
        (fun table fields => reader.overlay table (reader.table fields)) table) name =
      layers.foldl (fun value fields => (reader.given? fields name).or value)
        (reader.get? table name) := by
  induction layers generalizing table with
  | nil => rfl
  | cons fields rest ih =>
      obtain ⟨hFields, hRest⟩ := List.forall_mem_cons.mp hPlain
      rw [List.foldl_cons, ih hRest, h.get?_overlay_table hFields, List.foldl_cons]

/-- Files that hold objects are read as these objects. -/
theorem mapM_object? {userFile workspaceFile : Option reader.File}
    (hUser : reader.Holds userFile user) (hWorkspace : reader.Holds workspaceFile workspace) :
    (userFile.toList ++ workspaceFile.toList).mapM reader.object? =
      some (user.toList ++ workspace.toList) := by
  rw [Holds] at hUser hWorkspace
  cases userFile <;> cases workspaceFile <;> cases user <;> cases workspace <;> simp_all

/-- A table is built from files that hold plain objects, and it has the final values. -/
theorem IsLayered.exists_table (h : reader.IsLayered) {userFile workspaceFile : Option reader.File}
    (hUserFile : reader.Holds userFile user) (hWorkspaceFile : reader.Holds workspaceFile workspace)
    (hUser : ∀ fields ∈ user, reader.ArePlain fields)
    (hWorkspace : ∀ fields ∈ workspace, reader.ArePlain fields) (client : Client) :
    ∃ table, reader.build? defaultLayer (userFile.toList ++ workspaceFile.toList) client.layer =
        some table ∧
      ∀ f : Field, reader.get? table f.name = some (reader.finalValue user workspace client f) := by
  refine ⟨_, by rw [h.build?_eq, mapM_object? hUserFile hWorkspaceFile, Option.map_some],
    fun f => ?_⟩
  have hPlain : ∀ fields ∈ user.toList ++ workspace.toList ++ [client.layer],
      reader.ArePlain fields := by
    intro fields hFields
    rcases List.mem_append.mp hFields with hFields | hFields
    · rcases List.mem_append.mp hFields with hFields | hFields
      · exact hUser fields (Option.mem_toList.mp hFields)
      · exact hWorkspace fields (Option.mem_toList.mp hFields)
    · exact List.mem_singleton.mp hFields ▸ arePlain_clientLayer client
  have hFile (file : Option Layer) (value : Option Value) :
      file.toList.foldl (fun value fields => (reader.given? fields f.name).or value) value =
        (file.bind (reader.given? · f.name)).or value := by
    cases file <;> rfl
  rw [h.get?_foldl hPlain, h.get?_table _ h.arePlain_defaultLayer, h.given?_defaultLayer,
    List.foldl_append, List.foldl_append, hFile, hFile, List.foldl_cons, List.foldl_nil,
    h.given?_clientLayer, finalValue, givenLater?, ← Option.or_some]
  simp only [Option.or_assoc]

/-- The settings hold the values of their fields converted. -/
theorem ofTable?_eq_some_iff :
    reader.ofTable? table = some s ↔
      ∀ f : Field, (reader.get? table f.name).bind (reader.convert? f) = some (f.get s) := by
  simp only [ofTable?, Option.bind_eq_bind, Option.bind_eq_some_iff, Option.pure_def,
    Option.some.injEq]
  constructor
  · rintro ⟨hover, hHover, syntaxDiagnostics, hSyntax, autoImport, hAuto, qualified, hQualified,
      limit, hLimit, rfl⟩ f
    cases f <;> assumption
  · intro h
    exact ⟨s.hover, h .hover, s.syntaxDiagnostics, h .syntaxDiagnostics, s.autoImportCompletions,
      h .autoImportCompletions, s.qualifiedCompletions, h .qualifiedCompletions,
      s.completionLimit, h .completionLimit, rfl⟩

theorem ofTable?_eq_none_iff :
    reader.ofTable? table = none ↔
      ∃ f : Field, (reader.get? table f.name).bind (reader.convert? f) = none := by
  constructor
  · intro h
    by_contra hNone
    have hSome (f : Field) :
        ∃ content, (reader.get? table f.name).bind (reader.convert? f) = some content :=
      Option.ne_none_iff_exists'.mp fun hFails => hNone ⟨f, hFails⟩
    choose content hContent using hSome
    obtain ⟨s, hGet⟩ := Field.exists_get_eq content
    have hLoaded : reader.ofTable? table = some s :=
      ofTable?_eq_some_iff.mpr fun f => hGet f ▸ hContent f
    exact Option.some_ne_none s (hLoaded.symm.trans h)
  · rintro ⟨f, hNone⟩
    refine Option.eq_none_iff_forall_ne_some.mpr fun s hLoaded => ?_
    exact Option.some_ne_none _ ((ofTable?_eq_some_iff.mp hLoaded f).symm.trans hNone)

section

variable (h : reader.IsLayered) {userFile workspaceFile : Option reader.File}
  (hUserFile : reader.Holds userFile user) (hWorkspaceFile : reader.Holds workspaceFile workspace)
  (hUser : ∀ fields ∈ user, reader.ArePlain fields)
  (hWorkspace : ∀ fields ∈ workspace, reader.ArePlain fields) (client : Client)

include h hUserFile hWorkspaceFile hUser hWorkspace

/-- The settings that are loaded are the final values converted. -/
theorem load?_eq_some_iff {s : Settings} :
    reader.load? userFile workspaceFile client = some s ↔
      ∀ f : Field, reader.convert? f (reader.finalValue user workspace client f) =
        some (f.get s) := by
  obtain ⟨table, hTable, hFinal⟩ :=
    h.exists_table hUserFile hWorkspaceFile hUser hWorkspace client
  rw [load?, hTable, Option.bind_some, ofTable?_eq_some_iff]
  simp only [hFinal, Option.bind_some]

/-- Loading fails on a final value that does not convert, and on nothing else. -/
theorem load?_eq_none_iff :
    reader.load? userFile workspaceFile client = none ↔
      ∃ f : Field, reader.convert? f (reader.finalValue user workspace client f) = none := by
  obtain ⟨table, hTable, hFinal⟩ :=
    h.exists_table hUserFile hWorkspaceFile hUser hWorkspace client
  rw [load?, hTable, Option.bind_some, ofTable?_eq_none_iff]
  simp only [hFinal, Option.bind_some]

end

end Reader

/-! ### Files in JSON -/

theorem lowerCase_eq_self {name : String}
    (h : (name.toList.all fun c => c.isLower || c = '_') = true) : lowerCase name = name := by
  have hChar (c : Char) (hc : c ∈ name.toList) :
      (if c = '\u212A' then 'k' else c.toLower) = c := by
    have hLower := List.all_eq_true.mp h c hc
    rw [if_neg (by rintro rfl; revert hLower; decide)]
    refine Char.toLower_eq_of_not_isUpper ?_
    simp only [Bool.or_eq_true, decide_eq_true_eq] at hLower
    rcases hLower with hLower | rfl
    · exact Char.not_isUpper_of_isLower hLower
    · decide
  rw [lowerCase, ← String.toList_inj, String.toList_map, List.map_congr_left hChar, List.map_id']

theorem isIdentifierChar_lower {c : Char} (h : isIdentifierChar c = true) :
    isIdentifierChar (if c = '\u212A' then 'k' else c.toLower) = true := by
  split
  · decide
  · by_cases hUpper : c.isUpper = true
    · have hAlpha : c.toLower.isAlpha = true := by
        rw [Char.isAlpha_toLower_eq_isAlpha, Char.isAlpha, hUpper, Bool.true_or]
      simp [isIdentifierChar, Char.isAlphanum, hAlpha]
    · rwa [Char.toLower_eq_of_not_isUpper hUpper]

/-- A plain identifier in lower case is the name of a field as it stands. -/
theorem Key.ofName_lowerCase {name : String} (h : name.toList.all isIdentifierChar = true) :
    Key.ofName (lowerCase name) = ⟨lowerCase name, []⟩ := by
  refine Key.ofName_eq_of_all ?_
  rw [lowerCase, String.toList_map, List.all_map, List.all_eq_true]
  exact fun c hc => isIdentifierChar_lower (List.all_eq_true.mp h c hc)

/-- A plain object is a layer field by field. -/
theorem Layer.ofFields_eq {fields : Layer} (h : jsonReader.ArePlain fields) :
    Layer.ofFields fields = fields.map fun field => (lowerCase field.1, field.2) := by
  have hAll : fields.filter (fun field => fields.all fun other =>
      lowerCase other.1 ≠ lowerCase field.1 || other.1 ≤ field.1) = fields := by
    refine List.filter_eq_self.mpr fun field hField => List.all_eq_true.mpr fun other hOther => ?_
    have : Std.Symm fun one other : String × Value =>
        jsonReader.lower one.1 ≠ jsonReader.lower other.1 := ⟨fun _ _ hApart => hApart.symm⟩
    by_cases hSame : other = field
    · simp [hSame]
    · have hApart : lowerCase other.1 ≠ lowerCase field.1 := h.apart.forall hOther hField hSame
      simp [hApart]
  simp only [Layer.ofFields, hAll]
  refine List.map_congr_left fun field hField => ?_
  rw [Key.ofName_lowerCase (h.identifiers field hField)]
  rfl

/-- Where a test holds of one at most, the last that passes is the first. -/
theorem getLast?_filter_eq_find? {α : Type} {test : α → Bool} {l : List α}
    (h : l.Pairwise fun one other => ¬ (test one = true ∧ test other = true)) :
    (l.filter test).getLast? = l.find? test := by
  induction l with
  | nil => rfl
  | cons first rest ih =>
      obtain ⟨hFirst, hRest⟩ := List.pairwise_cons.mp h
      cases hTest : test first with
      | false => rw [List.filter_cons_of_neg (by simp [hTest]), List.find?_cons, hTest, ih hRest]
      | true =>
          have hNone : rest.filter test = [] :=
            List.filter_eq_nil_iff.mpr fun other hOther hPasses =>
              hFirst other hOther ⟨hTest, hPasses⟩
          rw [List.filter_cons_of_pos hTest, List.find?_cons, hTest, hNone, List.getLast?_singleton]

/-- What the upper of two layers gives counts, and the lower only where it gives nothing. -/
theorem Layer.value?_append (lower upper : Layer) (name : String) :
    (lower ++ upper).value? name = (upper.value? name).or (lower.value? name) := by
  rw [value?, List.filter_append, List.getLast?_append, Option.map_or]
  rfl

/-- A plain object gives the value of the only key that has a name for its lower case. -/
theorem Layer.value?_ofObject {fields : Layer} (h : jsonReader.ArePlain fields) (name : String) :
    (Layer.ofObject fields).value? name = jsonReader.given? fields name := by
  have hApart : fields.Pairwise fun one other =>
      ¬ ((decide (lowerCase one.1 = name) && one.2.isDefining) = true ∧
        (decide (lowerCase other.1 = name) && other.2.isDefining) = true) := by
    refine h.apart.imp fun hApart hBoth => hApart ?_
    simp only [Bool.and_eq_true, decide_eq_true_eq] at hBoth
    exact hBoth.1.1.trans hBoth.2.1.symm
  rw [value?, ofObject, ofFields_eq h, List.filter_filter, List.filter_map, List.getLast?_map,
    Option.map_map]
  exact congrArg (Option.map (·.2)) (getLast?_filter_eq_find? hApart)

/-- What is taken from a reader holds of the one for JSON. -/
theorem isLayered_jsonReader : jsonReader.IsLayered where
  lower_eq _ := lowerCase_eq_self
  defines value hOther := by
    cases value with
    | object fields => exact absurd rfl (hOther fields)
    | _ => rfl
  build?_eq _ _ _ := rfl
  get?_overlay := Layer.value?_append
  get?_table _ := Layer.value?_ofObject

namespace Reader

end Reader

end ElmScope.Settings
