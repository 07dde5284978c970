import PrometheusRing.Lib.Collect
import PrometheusRing.Lib.Replace

/-!
# Placeholders in the configuration of a node

The image of a node writes its Prometheus configuration from an environment variable. In the strings of the
configuration `{NAME}` stands for the value of another environment variable.
-/

namespace PrometheusRing.EnvToYml

/-- What the program reads from its surroundings. `os.Getenv` gives `""` for a variable that is not set. -/
structure Environment where
  getenv : String → String
  hostname : Except String String

def treatPlaceHolder (env : Environment) (placeHolder : String) : Except String String :=
  if placeHolder = "HOSTNAME" then
    match env.hostname with
    | .error err => .error s!"error getting hostname: {err}"
    | .ok hostName => .ok hostName
  else if placeHolder = "PROMETHEUS_YML" then
    .error "cannot use PROMETHEUS_YML as placeholder"
  else
    let envVar := env.getenv placeHolder
    if envVar = "" then .error s!"environment variable '{placeHolder}' not found" else .ok envVar

/-! ## Matches -/

def isWordChar (c : Char) : Bool := c.isAlphanum || c == '_'

/-- The name in a match of `{([A-Za-z0-9_]+)}` at the start of the text. -/
def matchName : List Char → Option (List Char)
  | [] => none
  | c :: s =>
      let name := s.takeWhile isWordChar
      if c = '{' ∧ name ≠ [] ∧ (s.drop name.length).head? = some '}' then some name else none

/-- A string is made of matches and of the characters between them. -/
inductive Piece where
  | char (c : Char)
  | placeHolder (name : String)
  deriving DecidableEq

/-- The pieces of a text. Matches are found from the left; the first `skip` characters belong to the match found
before. -/
def pieces : Nat → List Char → List Piece
  | _, [] => []
  | skip + 1, _ :: s => pieces skip s
  | 0, c :: s =>
      match matchName (c :: s) with
      | some name => .placeHolder (String.ofList name) :: pieces (name.length + 1) s
      | none => .char c :: pieces 0 s

def Piece.name? : Piece → Option String
  | .char _ => none
  | .placeHolder name => some name

/-- The whole match, `match[0]`. -/
def matchText (name : String) : String := "\x7b" ++ name ++ "\x7d"

/-- The names of the matches, `match[1]`, that `re.FindAllStringSubmatch(v, -1)` gives. -/
def placeHolders (v : String) : List String := (pieces 0 v.toList).filterMap Piece.name?

/-! ## Replacing -/

/-- `strings.ReplaceAll`, for a text `old` that is not empty. -/
def replaceAll (s old new : String) : String :=
  String.ofList (Replace.replaceAll old.toList new.toList s.toList)

/-- The body of the loop over the matches. -/
def replaceMatch (env : Environment) (newString placeHolder : String) : Except String String :=
  match treatPlaceHolder env placeHolder with
  | .ok envVarValue => .ok (replaceAll newString (matchText placeHolder) envVarValue)
  | .error err => .error s!"error replacing place holder {placeHolder}: {err}"

/-- `replacePlaceholders` on a string. -/
def replaceString (env : Environment) (v : String) : Except String String :=
  (placeHolders v).foldlM (replaceMatch env) v

/-! ## The whole configuration -/

/-- What `yaml.Unmarshal` gives: maps with string keys, slices and strings, and values `other` of any other type. -/
inductive Data (σ : Type) where
  | map (keys : Finset String) (value : {key // key ∈ keys} → Data σ)
  | slice (len : Nat) (item : Fin len → Data σ)
  | string (v : String)
  | other (v : σ)

/-- From a map or a slice to a value in it. -/
inductive Step where
  | key (key : String)
  | index (i : Nat)

/-- The orders in which the maps of a configuration are iterated, which Go leaves open: one for each place, as no
map is iterated twice. The steps that lead to a place are listed from the last to the first. -/
abbrev Iteration := (place : List Step) → (keys : Finset String) → Enumeration keys

def replacePlaceholders {σ : Type} (env : Environment) (iteration : Iteration) :
    List Step → Data σ → Except String (Data σ)
  | place, .map keys value => do
      let newMap ← Collect.overKeys (iteration place keys) fun key =>
        replacePlaceholders env iteration (.key key :: place) (value key)
      return .map newMap.keys newMap.value
  | place, .slice len item => do
      let newSlice ← Collect.overIndices len fun i =>
        replacePlaceholders env iteration (.index i :: place) (item i)
      return .slice len newSlice
  | _, .string v => do
      let newString ← replaceString env v
      return .string newString
  | _, .other v => return .other v

end PrometheusRing.EnvToYml
