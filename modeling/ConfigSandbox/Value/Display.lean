import ConfigSandbox.Number.Shortest
import ConfigSandbox.Text.Quoted
import ConfigSandbox.Value.Basic

/-!
Values as text, in the notation of literals wherever a value has one.
-/
namespace ConfigSandbox.Value

def commaSeparated (parts : List String) : String := ", ".intercalate parts

mutual

def display : Value → String
  | none => "None"
  | bool true => "True"
  | bool false => "False"
  | int n => toString n.toInt
  | float x => x.text
  | str s => quote s
  | list items => "[" ++ commaSeparated (displayAll items) ++ "]"
  | tuple [item] => "(" ++ item.display ++ ",)"
  | tuple items => "(" ++ commaSeparated (displayAll items) ++ ")"
  | set [] => "set()"
  | set items => "\x7b" ++ commaSeparated (displayAll items) ++ "\x7d"
  | dict entries => "\x7b" ++ commaSeparated (displayEntries entries) ++ "\x7d"
  | function f => "<plugin " ++ f.name ++ ">"
  | environment => "ProtectedEnv(\x7b...\x7d)"

def displayAll : List Value → List String
  | [] => []
  | item :: rest => item.display :: displayAll rest

def displayEntries : List (Value × Value) → List String
  | [] => []
  | (key, value) :: rest => (key.display ++ ": " ++ value.display) :: displayEntries rest

end

end ConfigSandbox.Value
