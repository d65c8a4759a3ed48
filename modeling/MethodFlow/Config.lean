import MethodFlow.ConfigError
import MethodFlow.OrderedMap
import MethodFlow.Text.Blank

/-!
Configurations of analyses: the id of an analysis and its options, as in `constprop=strategy:lifo`.
-/

namespace MethodFlow

inductive OptionValue
  | bool (b : Bool)
  | int (n : Int)
  | str (s : String)
  deriving DecidableEq

namespace OptionValue

def render : OptionValue → Except Text.Overlong String
  | bool true => .ok "True"
  | bool false => .ok "False"
  | int n => Text.writeInt n
  | str s => .ok s

/-- The value as messages show it: a text in quotes, anything else as it is. -/
def describe : OptionValue → Except Text.Overlong String
  | str s => .ok (Text.quoted s)
  | v => v.render

def truths : List String :=
  ["true", "yes", "on"]

def falsehoods : List String :=
  ["false", "no", "off"]

/-- Reads a value: a word for true or false in any case, a whole number, or any other text. -/
def ofText (cs : List Char) : Except Text.Overlong OptionValue :=
  let text := Text.trim cs
  let word := String.ofList (text.map Char.toLower)
  if word ∈ truths then .ok (bool true)
  else if word ∈ falsehoods then .ok (bool false)
  else do return (← Text.wholeNumber? text).elim (str (String.ofList text)) int

end OptionValue

structure Config where
  id : String
  options : OrderedMap String OptionValue
  description : String

namespace Config

def plain (id : String) : Config :=
  ⟨id, ∅, ""⟩

def option? (c : Config) (key : String) : Option OptionValue :=
  c.options.find? key

def render (c : Config) : Except Text.Overlong String := do
  if c.options.entries.isEmpty then return c.id
  let options ← c.options.entries.mapM fun o => return o.1 ++ ":" ++ (← o.2.render)
  return c.id ++ "=" ++ ";".intercalate options

/-- Ids are a letter followed by letters, digits, underscores and hyphens, all of them ASCII. -/
def isId : List Char → Bool
  | [] => false
  | c :: r => c.isAlpha && r.all fun d => d.isAlphanum || d == '_' || d == '-'

/-- Reads one `key:value` and adds it to the options of the analysis `id`. -/
def addOption (id : String) (options : OrderedMap String OptionValue) (item : List Char) :
    Except ConfigError (OrderedMap String OptionValue) :=
  let (before, after) := Text.cutAt ':' item
  let key := Text.trim before
  match after with
  | some value =>
    if key.isEmpty then .error (.malformedOption (String.ofList item) id)
    else do return options.insert (String.ofList key) (← OptionValue.ofText value)
  | none => .error (.malformedOption (String.ofList item) id)

/-- Reads `id` or `id=key:value;key:value`; empty options are skipped, and of two options with one
key the later value counts. -/
def parse (spec description : String) : Except ConfigError Config := do
  let text := Text.trim spec.toList
  let (before, after) := Text.cutAt '=' text
  let id := Text.trim before
  if !isId id then throw (.invalidId (String.ofList text))
  let items := ((Text.pieces ';' (after.getD [])).map Text.trim).filter (!·.isEmpty)
  let options ← items.foldlM (addOption (String.ofList id)) ∅
  return ⟨String.ofList id, options, description⟩

end Config

end MethodFlow
