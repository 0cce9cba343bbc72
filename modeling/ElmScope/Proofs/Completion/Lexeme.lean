import ElmScope.Proofs.Completion.Scan

/-! Braces in a text that is a sequence of complete lexemes. Comments, strings and character
literals are passed over as lexemes, and what is left are the single characters that belong to
none. A string in triple quotes is passed over in three parts, of which the middle one is an
ordinary string, so it counts as one lexeme only as long as no quote stands in it. -/
namespace ElmScope.Braces

open Text

/-- The parts of a text that matter for its braces. -/
inductive Lexeme where
  | lineComment (body : List Char)
  | blockComment (body : List Char)
  | string (body : List Char)
  | tripleString (body : List Char)
  | character (body : List Char)
  /-- A character that begins none of these. -/
  | other (c : Char)
deriving DecidableEq, Repr

/-- The body of a literal: up to its end a mark stands behind a backslash only. -/
inductive IsQuoted (mark : Char) : List Char → Prop where
  | nil : IsQuoted mark []
  | escape {rest : List Char} (c : Char) (h : IsQuoted mark rest) : IsQuoted mark ('\\' :: c :: rest)
  | plain {c : Char} {rest : List Char} (hEscape : c ≠ '\\') (hMark : c ≠ mark)
      (h : IsQuoted mark rest) : IsQuoted mark (c :: rest)

def quotes : List Char := ['"', '"', '"']

/-- The body of a string in triple quotes: up to its end three quotes do not follow each other
without a backslash. -/
inductive IsTripleQuoted : List Char → Prop where
  | nil : IsTripleQuoted []
  | escape {rest : List Char} (c : Char) (h : IsTripleQuoted rest) :
      IsTripleQuoted ('\\' :: c :: rest)
  | plain {c : Char} {rest : List Char} (hEscape : c ≠ '\\')
      (hQuotes : ¬ quotes <+: c :: (rest ++ quotes)) (h : IsTripleQuoted rest) :
      IsTripleQuoted (c :: rest)

/-- The body of a block comment: characters that begin no mark of a comment, and comments. -/
inductive IsCommented : List Char → Prop where
  | nil : IsCommented []
  | plain {c : Char} {rest : List Char} (hOpen : c = '\x7b' → (rest ++ ['-']).head? ≠ some '-')
      (hClose : c = '-' → rest.head? ≠ some '\x7d') (h : IsCommented rest) : IsCommented (c :: rest)
  | nested {inner rest : List Char} (hInner : IsCommented inner) (h : IsCommented rest) :
      IsCommented ('\x7b' :: '-' :: (inner ++ '-' :: '\x7d' :: rest))

namespace Lexeme

def text : Lexeme → List Char
  | lineComment body => '-' :: '-' :: (body ++ ['\n'])
  | blockComment body => '\x7b' :: '-' :: (body ++ ['-', '\x7d'])
  | string body => '"' :: (body ++ ['"'])
  | tripleString body => quotes ++ (body ++ quotes)
  | character body => '\'' :: (body ++ ['\''])
  | other c => [c]

/-- Whether a lexeme is complete and is read whole, when a text follows it. -/
def IsComplete : Lexeme → List Char → Prop
  | lineComment body, _ => '\n' ∉ body
  | blockComment body, _ => IsCommented body
  | string body, after => IsQuoted '"' body ∧ '\n' ∉ body ∧ (body = [] → after.head? ≠ some '"')
  | tripleString body, _ => IsTripleQuoted body
  | character body, _ => IsQuoted '\'' body
  | other c, after => c ≠ '"' ∧ c ≠ '\'' ∧ (c = '\x7b' ∨ c = '-' → after.head? ≠ some '-')

def scanned : Lexeme → List Scanned
  | other c => [⟨c, true⟩]
  | lexeme => lexeme.text.map (Scanned.mk · false)

end Lexeme

def textOf (lexemes : List Lexeme) : List Char := lexemes.flatMap Lexeme.text

def others (lexemes : List Lexeme) : List Char :=
  lexemes.filterMap fun lexeme => match lexeme with
    | .other c => some c
    | _ => none

inductive AreComplete : List Lexeme → Prop where
  | nil : AreComplete []
  | cons {lexeme : Lexeme} {rest : List Lexeme} (h : lexeme.IsComplete (textOf rest))
      (hRest : AreComplete rest) : AreComplete (lexeme :: rest)

variable {body rest : List Char} {lexeme : Lexeme} {lexemes : List Lexeme} {offset n : Nat}

theorem textOf_cons (lexeme : Lexeme) (rest : List Lexeme) :
    textOf (lexeme :: rest) = lexeme.text ++ textOf rest := rfl

theorem skip_skip (a b : List Char) (more : List Scanned × Region) :
    skip a (skip b more) = skip (a ++ b) more := by
  simp [skip]

/-- A literal is passed over up to its mark. -/
theorem IsLiteral.scan_quoted {region : Region} {mark : Char} (hLiteral : IsLiteral region mark)
    (h : IsQuoted mark body) (rest : List Char) :
    scan region (body ++ mark :: rest) = skip (body ++ [mark]) (scan .code rest) := by
  induction h with
  | nil => simp [hLiteral.plain mark rest fun hMark => absurd hMark hLiteral.mark_ne]
  | escape c h ih =>
      rw [List.cons_append, List.cons_append, hLiteral.escape, ih, skip_skip]
      rfl
  | @plain c more hNoEscape hNoMark h ih =>
      rw [List.cons_append, hLiteral.plain c _ fun hEscape => absurd hEscape hNoEscape,
        if_neg hNoMark, ih, skip_skip]
      rfl

/-- A line comment is passed over up to its line feed. -/
theorem scan_lineComment (h : '\n' ∉ body) (rest : List Char) :
    scan .lineComment (body ++ '\n' :: rest) = skip (body ++ ['\n']) (scan .code rest) := by
  induction body with
  | nil => rfl
  | cons c body ih =>
      rw [List.mem_cons, not_or] at h
      rw [List.cons_append, scan, if_neg (Ne.symm h.1), ih h.2, skip_skip]
      rfl

/-- The body of a block comment is passed over at every depth, by induction on the comments in
it. -/
theorem scan_commented (h : IsCommented body) (depth : Nat) (rest : List Char) :
    scan (.blockComment depth) (body ++ '-' :: '\x7d' :: rest) =
      skip body (scan (.blockComment depth) ('-' :: '\x7d' :: rest)) := by
  induction h generalizing depth rest with
  | nil => rfl
  | @plain c inner hOpen hClose h ih =>
      rw [List.cons_append, scan, ih, skip_skip]
      · rfl
      · intro more hc hMore
        cases inner with
        | nil => exact hOpen hc rfl
        | cons x inner => exact hOpen hc (congrArg some (List.cons.inj hMore).1)
      · intro more hc hMore
        cases inner with
        | nil => exact absurd (List.cons.inj hMore).1 (by decide)
        | cons x inner => exact hClose hc (congrArg some (List.cons.inj hMore).1)
  | @nested inner more hInner h ihInner ih =>
      have hText : '\x7b' :: '-' :: (inner ++ '-' :: '\x7d' :: more) ++ '-' :: '\x7d' :: rest =
          '\x7b' :: '-' :: (inner ++ '-' :: '\x7d' :: (more ++ '-' :: '\x7d' :: rest)) := by simp
      rw [hText, scan, ihInner, scan, ih]
      simp [skip_skip]

/-- A complete lexeme is passed over whole, unless it is a single character, which is code. A string
in triple quotes is passed over as an empty string, a string, and an empty string. -/
theorem Lexeme.IsComplete.scan (h : lexeme.IsComplete rest)
    (hNoQuote : ∀ body, lexeme = .tripleString body → IsQuoted '"' body) :
    scan .code (lexeme.text ++ rest) =
      (lexeme.scanned ++ (scan .code rest).1, (scan .code rest).2) := by
  cases lexeme with
  | lineComment body =>
      have hRead := scan_lineComment h rest
      simp [Lexeme.text, Braces.scan, hRead, Lexeme.scanned, skip]
  | blockComment body =>
      have hRead := scan_commented h 0 rest
      simp [Lexeme.text, Braces.scan, hRead, Lexeme.scanned, skip]
  | string body =>
      have hRead := isLiteral_string.scan_quoted h.1 rest
      simp [Lexeme.text, Braces.scan, hRead, Lexeme.scanned, skip]
  | tripleString body =>
      have hRead := isLiteral_string.scan_quoted (hNoQuote body rfl) ('"' :: '"' :: rest)
      simp [Lexeme.text, quotes, Braces.scan, hRead, Lexeme.scanned, skip]
  | character body =>
      have hRead := isLiteral_character.scan_quoted h rest
      simp [Lexeme.text, Braces.scan, hRead, Lexeme.scanned, skip]
  | other c =>
      obtain ⟨hString, hCharacter, hNext⟩ := h
      have hRest : ∀ more, c = '\x7b' ∨ c = '-' → rest ≠ '-' :: more := by
        rintro more hc rfl
        exact hNext hc rfl
      rw [Lexeme.text, List.singleton_append, Braces.scan]
      · rfl
      · exact fun more hc => hRest more (.inl hc)
      · exact fun more hc => hRest more (.inr hc)
      · exact hString
      · exact hCharacter

/-- A sequence of complete lexemes is passed over lexeme by lexeme. -/
theorem AreComplete.scan (h : AreComplete lexemes)
    (hNoQuote : ∀ body, .tripleString body ∈ lexemes → IsQuoted '"' body) :
    scan .code (textOf lexemes) = (lexemes.flatMap Lexeme.scanned, .code) := by
  induction h with
  | nil => rfl
  | @cons lexeme rest h hRest ih =>
      have hFirst := h.scan fun body hBody => hNoQuote body (hBody ▸ List.mem_cons_self)
      have hMore := ih fun body hBody => hNoQuote body (List.mem_cons_of_mem _ hBody)
      rw [textOf_cons, hFirst, hMore, List.flatMap_cons]

/-- The code among lexemes are their single characters. -/
theorem codeOf_scanned (lexemes : List Lexeme) :
    codeOf (lexemes.flatMap Lexeme.scanned) = others lexemes := by
  induction lexemes with
  | nil => rfl
  | cons lexeme rest ih =>
      rw [List.flatMap_cons, codeOf_append, ih]
      cases lexeme <;> simp [Lexeme.scanned, others, codeOf]

theorem leftOpen_skipped (text : List Char) {scanned : List Scanned} :
    LeftOpen offset (text.map (Scanned.mk · false) ++ scanned) n ↔
      LeftOpen (offset + byteLength text) scanned n := by
  induction text generalizing offset with
  | nil => rfl
  | cons c text ih =>
      rw [List.map_cons, List.cons_append, leftOpen_cons, ih, byteLength, Nat.add_assoc]
      simp

/-- A lexeme leaves a brace open only if it is one. Braces in comments and literals stay out. -/
theorem leftOpen_lexeme {scanned : List Scanned} : LeftOpen offset (lexeme.scanned ++ scanned) n ↔
    (lexeme = .other '\x7b' ∧ n = offset ∧ ¬ IsClosed 0 (codeOf scanned)) ∨
      LeftOpen (offset + byteLength lexeme.text) scanned n := by
  cases lexeme with
  | other c => simp [Lexeme.scanned, Lexeme.text, leftOpen_cons, byteLength]
  | _ => simp [Lexeme.scanned, leftOpen_skipped]

/-- The braces left open by lexemes are among the single characters. -/
theorem leftOpen_scanned_iff : LeftOpen offset (lexemes.flatMap Lexeme.scanned) n ↔
    ∃ before after, lexemes = before ++ .other '\x7b' :: after ∧
      n = offset + byteLength (textOf before) ∧ ¬ IsClosed 0 (others after) := by
  induction lexemes generalizing offset with
  | nil => simp [LeftOpen]
  | cons lexeme rest ih =>
      rw [List.flatMap_cons, leftOpen_lexeme, ih, codeOf_scanned]
      constructor
      · rintro (⟨rfl, rfl, hOpen⟩ | ⟨before, after, rfl, rfl, hOpen⟩)
        · exact ⟨[], rest, rfl, rfl, hOpen⟩
        · refine ⟨lexeme :: before, after, rfl, ?_, hOpen⟩
          rw [textOf_cons, byteLength_append, Nat.add_assoc]
      · rintro ⟨before, after, hLexemes, hn, hOpen⟩
        cases before with
        | nil =>
            obtain ⟨rfl, rfl⟩ := List.cons.inj hLexemes
            exact .inl ⟨rfl, hn, hOpen⟩
        | cons first before =>
            obtain ⟨rfl, rfl⟩ := List.cons.inj hLexemes
            refine .inr ⟨before, after, rfl, ?_, hOpen⟩
            rw [hn, textOf_cons, byteLength_append, Nat.add_assoc]

/-- In a sequence of complete lexemes, of which no string in triple quotes has a quote in it, the
braces that stay open are the single opening braces that no single closing brace behind them
closes. They are given in the order of the text, each by the offset of its character. -/
theorem unmatched_lexemes (lexemes : List Lexeme) (hComplete : AreComplete lexemes)
    (hNoQuote : ∀ body, .tripleString body ∈ lexemes → IsQuoted '"' body) :
    (∀ n, n ∈ unmatched (textOf lexemes) ↔
      ∃ before after, lexemes = before ++ .other '\x7b' :: after ∧
        n = byteLength (textOf before) ∧ ¬ IsClosed 0 (others after)) ∧
    (unmatched (textOf lexemes)).Pairwise (· < ·) ∧
    ∀ n ∈ unmatched (textOf lexemes), IsBoundary (textOf lexemes) n := by
  refine ⟨fun n => ?_, pairwise_unmatched _, fun n => isBoundary_of_mem_unmatched⟩
  rw [mem_unmatched_iff, hComplete.scan hNoQuote, leftOpen_scanned_iff]
  simp only [Nat.zero_add]

/-- A brace in a string and one in a comment, in a record that is left open. -/
theorem unmatched_lexemes_record :
    let lexemes := [.other '\x7b', .tripleString ['\x7b'], .blockComment ['\x7d']]
    AreComplete lexemes ∧ (∀ body, .tripleString body ∈ lexemes → IsQuoted '"' body) ∧
      0 ∈ unmatched (textOf lexemes) := by
  intro lexemes
  have hString : IsQuoted '"' ['\x7b'] := .plain (by decide) (by decide) .nil
  have hComplete : AreComplete lexemes := by
    refine .cons ⟨by decide, by decide, by decide⟩ (.cons ?_ (.cons ?_ .nil))
    · exact .plain (by decide) (by decide) .nil
    · exact .plain (by decide) (by decide) .nil
  have hNoQuote : ∀ body, .tripleString body ∈ lexemes → IsQuoted '"' body := by
    intro body hBody
    obtain rfl : body = ['\x7b'] := by simpa [lexemes] using hBody
    exact hString
  refine ⟨hComplete, hNoQuote, ?_⟩
  refine ((unmatched_lexemes lexemes hComplete hNoQuote).1 0).mpr ⟨[], _, rfl, rfl, ?_⟩
  exact not_isClosed_nil

/-- A quote alone in a string in triple quotes makes code of the rest of the string. -/
theorem unmatched_lexemes_quote :
    let lexemes := [.tripleString [' ', '"', ' ', '\x7b', ' ']]
    AreComplete lexemes ∧ .other '\x7b' ∉ lexemes ∧ unmatched (textOf lexemes) = [6] := by
  refine ⟨.cons ?_ .nil, by decide, by decide⟩
  refine .plain (by decide) (by decide) (.plain (by decide) (by decide) ?_)
  exact .plain (by decide) (by decide) (.plain (by decide) (by decide)
    (.plain (by decide) (by decide) .nil))

end ElmScope.Braces
