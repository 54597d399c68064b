-- SUMMARY: The INI reader of `softgred_config.c`: lines, groups, pairs and lookup.
import Softgre.Compat.Text

/-!
# Configuration files

`ini_load` reads a file line by line and keeps the pairs in order. A line that is
neither blank, comment, group header nor pair makes it fail.
-/

namespace Softgre

/-- What `fopen` and `getline` get from a path: nothing, or the bytes up to the end
    of the file or up to a read error. -/
inductive ConfigFile where
  | unopened (error : CStr)
  | opened (bytes : CStr) (failure : Option CStr)
deriving DecidableEq, Repr

/-- The lines `getline` returns, each with its line feed if it has one. -/
def getLines : CStr → List CStr
  | [] => []
  | c :: rest =>
    if c == '\n' then [c] :: getLines rest
    else
      match getLines rest with
      | [] => [[c]]
      | line :: lines => (c :: line) :: lines

structure IniPair where
  group : CStr
  key : CStr
  value : CStr
deriving DecidableEq, Repr

/-- `config_set_error`: the text that ends up in `config_error`. -/
def configSetError (text : CStr) : CStr := snprintf 256 text

/-- An error that names the line. -/
def lineError (number : UInt32) (text : String) : CStr :=
  configSetError ("line ".toList ++ dec number.toNat ++ ": ".toList ++ text.toList)

/-- The state of `ini_load` between two lines. -/
structure IniState where
  number : UInt32
  group : CStr
  pairs : List IniPair
deriving DecidableEq, Repr

def IniState.start : IniState := ⟨0, [], []⟩

/-- `sizeof(group)`. -/
def groupSize : Nat := 64

/-- A line that starts with a bracket, without it. -/
def iniGroup (st : IniState) (s : CStr) : Except CStr IniState :=
  match strchr s ']' with
  | (name, some []) =>
    if name.isEmpty || name.length ≥ groupSize then
      .error (lineError st.number "invalid group header")
    else .ok { st with group := name }
  | _ => .error (lineError st.number "invalid group header")

/-- Any other line that is not blank or a comment. -/
def iniPair (st : IniState) (s : CStr) : Except CStr IniState :=
  match strchr s '=' with
  | (_ :: _, some value) =>
    let key := strTrim (strchr s '=').1
    if key.isEmpty then .error (lineError st.number "empty key")
    else .ok { st with pairs := st.pairs ++ [⟨st.group, key, strTrim value⟩] }
  | _ => .error (lineError st.number "not a key=value pair")

/-- One round of the loop of `ini_load`. -/
def iniLine (st : IniState) (line : CStr) : Except CStr IniState :=
  let st := { st with number := st.number + 1 }
  if line.contains '\x00' then .error (lineError st.number "embedded NUL byte")
  else
    match strTrim line with
    | [] => .ok st
    | c :: rest =>
      if c == '#' || c == ';' then .ok st
      else if c == '[' then iniGroup st rest
      else iniPair st (c :: rest)

def iniLoad : ConfigFile → Except CStr (List IniPair)
  | .unopened error => .error (configSetError error)
  | .opened bytes failure => do
    let st ← (getLines bytes).foldlM iniLine .start
    match failure with
    | some error => .error (configSetError ("cannot read configuration: ".toList ++ error))
    | none => .ok st.pairs

/-- The value of the last definition. -/
def iniGet (ini : List IniPair) (group key : CStr) : Option CStr :=
  ini.foldl (fun value p => if p.group == group && p.key == key then some p.value else value) none

def iniHas (ini : List IniPair) (group key : CStr) : Bool := (iniGet ini group key).isSome

/-- The values a key is defined with, in order. -/
def definitions (ini : List IniPair) (group key : CStr) : List CStr :=
  (ini.filter fun p => p.group == group && p.key == key).map IniPair.value

theorem iniGet_eq (ini : List IniPair) (group key : CStr) :
    iniGet ini group key = (definitions ini group key).getLast? := by
  rw [iniGet]
  induction ini using List.reverseRecOn with
  | nil => rfl
  | append_singleton ini p ih =>
    rw [List.foldl_append, List.foldl_cons, List.foldl_nil, definitions, List.filter_append,
      List.filter_singleton]
    split <;> rename_i h
    · simp [h]
    · rw [ih]
      simp [h, definitions]

end Softgre
