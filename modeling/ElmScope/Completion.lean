import ElmScope.Completion.Header
import ElmScope.Completion.Name
import ElmScope.Completion.Record

/-! Completions at a cursor. The contexts are tried in a fixed order and the first
that fits gives the candidates; an expression fits always. A dot that was typed and
fits no context of dots gives none. Of candidates with one name the first is kept,
and no more are answered than the settings allow. -/
namespace ElmScope

namespace Request

/-- The candidates of the first context that fits. -/
def candidates (r : Request) : List Candidate :=
  (r.importModule?.or <|
    r.importExposing?.or <|
    r.moduleExposing?.or <|
    r.recordFields?.or <|
    r.qualified?.or <|
    (if r.trigger = .character '.' then some [] else none).or <|
    r.typeName?.or r.topLevelName?).getD r.values

/-- What is answered: each name once, up to the limit. -/
def answer (r : Request) : List Candidate :=
  (firstOfName r.candidates).take r.settings.completionLimit

end Request

namespace Workspace

def completions (w : Workspace) (uri : String) (p : Position) (trigger : Trigger)
    (settings : Settings) : List Candidate :=
  match w.get? uri with
  | none => []
  | some d => (Request.mk w (w.fileScope d) settings trigger p).answer

end Workspace

end ElmScope
