import MacroEngine.Config

/-!
# Configuration from data

A configuration document, once its notation has been read, is data: texts, lists and maps.
`Config.ofData?` takes the settings from it. What the document does not say stays as in
`Config.standard`; a key that is no setting, a key that comes twice and a value of the wrong form
make the document useless as a whole.
-/

namespace MacroEngine

inductive ConfigData where
  | text (value : String)
  /-- Nothing, where a value could stand: an empty text, list or map. -/
  | absent
  /-- A value that is no text, list or map. -/
  | other
  | list (items : List ConfigData)
  | map (entries : List (String × ConfigData))
deriving Inhabited

namespace ConfigData

def text? : ConfigData → Option String
  | .text value => some value
  | .absent => some ""
  | _ => none

def texts? : ConfigData → Option (List String)
  | .list items => items.mapM text?
  | .absent => some []
  | _ => none

def policy? : ConfigData → Option MissPolicy
  | .text word => MissPolicy.ofLabel? word
  | _ => none

/-- A map from operators to dotted names; of two entries for one operator the later counts. -/
def operators? : ConfigData → Option (List (String × String))
  | .map entries => do
    let named ← entries.mapM fun (token, callee) => return (token, ← callee.text?)
    return named.foldl (fun table (token, callee) => insertOperator token callee table) []
  | .absent => some []
  | _ => none

end ConfigData

namespace Config

def set? (config : Config) (key : String) (value : ConfigData) : Option Config :=
  match key with
  | "unresolved_derive" => value.policy?.map fun p => { config with unresolvedDerive := p }
  | "unmatched_anchor" => value.policy?.map fun p => { config with unmatchedAnchor := p }
  | "operators" => value.operators?.map fun t => { config with operators := t }
  | "extensions" => value.texts?.map fun ts => { config with extensions := ts }
  | "ignored_dirs" => value.texts?.map fun ts => { config with ignoredDirs := ts }
  | _ => none

/-- The settings with several of them changed, each at most once. -/
def setAll? : List (String × ConfigData) → Config → Option Config
  | [], config => some config
  | (key, value) :: more, config =>
    if more.any (·.1 = key) then none
    else do setAll? more (← config.set? key value)

def ofData? : ConfigData → Option Config
  | .map entries => setAll? entries .standard
  | .absent => some .standard
  | _ => none

end Config

end MacroEngine
