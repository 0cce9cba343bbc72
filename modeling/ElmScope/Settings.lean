import ElmScope.Settings.Json

/-! The settings of a workspace whose files are written in JSON. -/
namespace ElmScope.Settings

def load? (user workspace : Option Value) (client : Client) : Option Settings :=
  jsonReader.load? user workspace client

end ElmScope.Settings
