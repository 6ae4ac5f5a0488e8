import PvfsProxy.Lib.Scanf
import PvfsProxy.Proxy2
import PvfsProxy.Dictionary

/-!
# The configuration file parser of `iniparser.c`

A file is the list of its characters. `iniparserLine` sorts one line and
`iniparserLoad` feeds the dictionary from the lines `fgets` returns. A section
name is set to NULL, a key is set under `section:key`.

The checks on the last character of a line look in front of the buffer where
the line is empty, as a line of blanks is once they are cut off; `below` is the
character they find there. What is read after a syntax error takes the place
of the error count: `errs` is the result of the last `dictionary_set`.
-/

namespace PvfsProxy

open CString

/-- `ASCIILINESZ`, one less than the buffers for strings have places. -/
def asciilinesz : Nat := 1024

def strlwc (s : List Char) : List Char := (s.take asciilinesz).map Char.toLower

def strstrip (s : List Char) : List Char := strip s

/-- What `iniparser_line` makes of a line, with the strings it leaves in the
buffers that are read afterwards. -/
inductive IniLine where
  | error
  | empty
  | comment
  | section_ (name : List Char)
  | value (key value : List Char)
deriving Repr, DecidableEq

/-- `"[%[^]]"` -/
def sectionFormat : List Directive := [.char '[', .set (· != ']')]

/-- `"%[^=] = \"%[^\"]\""` and the same with the other quote -/
def quotedFormat (quote : Char) : List Directive :=
  [.set (· != '='), .blank, .char '=', .blank, .char quote, .set (· != quote), .char quote]

/-- `"%[^=] = %[^;#]"` -/
def plainFormat : List Directive :=
  [.set (· != '='), .blank, .char '=', .blank, .set fun c => c != ';' && c != '#']

/-- `"%[^=] = %[;#]"` -/
def remarkFormat : List Directive :=
  [.set (· != '='), .blank, .char '=', .blank, .set fun c => c == ';' || c == '#']

/-- `"%[^=] %[=]"` -/
def bareFormat : List Directive := [.set (· != '='), .blank, .set (· == '=')]

/-- The key and the value of the first format that assigns two strings. -/
def firstPair (line : List Char) : List (List Directive) → Option (List Char × List Char)
  | [] => none
  | format :: formats =>
    match sscanf format line with
    | [key, value] => some (key, value)
    | _ => firstPair line formats

def isSectionLine (line : List Char) : Bool :=
  line.head? == some '[' && line.getLast? == some ']'

/-- `iniparser_line`; `section` is what the buffer for section names holds. -/
def iniparserLine (inputLine section_ : List Char) : IniLine :=
  let line := strstrip inputLine
  if line = [] then .empty
  else if line.head? = some '#' then .comment
  else if isSectionLine line then
    .section_ (strlwc (strstrip (((sscanf sectionFormat line).head?).getD section_)))
  else
    match firstPair line [quotedFormat '"', quotedFormat '\'', plainFormat] with
    | some (key, value) =>
      let value := strstrip value
      .value (strlwc (strstrip key))
        (if value = ['"', '"'] ∨ value = ['\'', '\''] then [] else value)
    | none =>
      match firstPair line [remarkFormat, bareFormat] with
      | some (key, _) => .value (strlwc (strstrip key)) []
      | none => .error

/-- The variables of the loop of `iniparser_load`; `line` is the part of the
buffer up to `last`, which a continued line leaves there. -/
structure IniReader where
  line : List Char
  section_ : List Char
  dict : Dictionary
  errs : Int
deriving Repr, DecidableEq

def IniReader.store (s : IniReader) (line : List Char) : Except MemoryFault IniReader :=
  match iniparserLine line s.section_ with
  | .empty | .comment => .ok { s with line := [] }
  | .section_ name => do
    let (dict, errs) ← dictionarySet s.dict (some name) none
    return { line := [], section_ := name, dict, errs }
  | .value key value =>
    if s.section_.length + 1 + key.length > asciilinesz then .error .outside
    else do
      let (dict, errs) ← dictionarySet s.dict (some (s.section_ ++ ':' :: key)) (some value)
      return { s with line := [], dict, errs }
  | .error => .ok { s with line := [], errs := s.errs + 1 }

/-- One turn of the loop of `iniparser_load`, without a reader where the file is
given up. -/
def IniReader.turn (below : Char) (s : IniReader) (chunk : List Char) :
    Except MemoryFault (Option IniReader) :=
  let line := (s.line ++ chunk).takeWhile (· != '\x00')
  if line.getLast?.getD below ≠ '\n' then .ok none
  else
    let line := line.rdropWhile isspace
    if line.getLast?.getD below = '\\' then
      if line = [] then .error .outside else .ok (some { s with line := line.dropLast })
    else (s.store line).map some

/-- The loop of `iniparser_load`; a turn reads at least one character. -/
def iniparserLoop (below : Char) : Nat → IniReader → List Char →
    Except MemoryFault (Option IniReader)
  | 0, s, _ => .ok (some s)
  | turns + 1, s, file =>
    match fgets (asciilinesz - s.line.length) file with
    | none => .ok (some s)
    | some (chunk, file) => do
      match ← s.turn below chunk with
      | none => return none
      | some s => if s.errs < 0 then return some s else iniparserLoop below turns s file

/-- `iniparser_load` on a file that could be opened. -/
def iniparserLoad (below : Char) (file : List Char) : Except MemoryFault (Option Dictionary) := do
  let s : IniReader := { line := [], section_ := [], dict := dictionaryNew 0, errs := 0 }
  match ← iniparserLoop below file.length s file with
  | none => return none
  | some s => return if s.errs ≠ 0 then none else some s.dict

/-! ## Looking up -/

def iniparserGetstring (d : Dictionary) (key : List Char) (deflt : CharPtr) : CharPtr :=
  dictionaryGet d (strlwc key) deflt

def iniparserGetint (d : Dictionary) (key : List Char) (notfound : Int) :
    Except MemoryFault Int :=
  match iniparserGetstring d key .invalidKey with
  | .invalidKey => .ok notfound
  | .null => .error .nullPointer
  | .str s => .ok (toInt32 (strtol s))

def iniparserFindEntry (d : Dictionary) (entry : List Char) : Int :=
  if iniparserGetstring d entry .invalidKey ≠ .invalidKey then 1 else 0

/-! ## Writing a file -/

/-- `iniparser_getnsec`: a key without a colon is a section. -/
def iniparserGetnsec (d : Dictionary) : Nat := (d.keys.filter (':' ∉ ·)).length

def iniparserGetsecname (d : Dictionary) (n : Nat) : Option (List Char) :=
  (d.keys.filter (':' ∉ ·))[n]?

def padTo30 (s : List Char) : List Char := s ++ List.replicate (30 - s.length) ' '

def dumpEntry (key : List Char) (val : Option (List Char)) : List Char :=
  padTo30 key ++ [' ', '=', ' '] ++ val.getD [] ++ ['\n']

/-- What `iniparser_dump_ini` writes for the section `secname`. -/
def dumpSection (d : Dictionary) (secname : List Char) : Except MemoryFault (List Char) :=
  if secname.length + 1 > asciilinesz then .error .outside
  else
    let keym := secname ++ [':']
    let entries := (SlotTable.entries DictSlot.entry d.slots).filter fun e => keym.isPrefixOf e.1
    .ok (['\n', '['] ++ secname ++ [']', '\n']
      ++ entries.flatMap fun e => dumpEntry (e.1.drop (secname.length + 1)) e.2)

def dumpSections (d : Dictionary) : Nat → Nat → Except MemoryFault (List Char)
  | 0, _ => .ok []
  | nsec + 1, i =>
    match iniparserGetsecname d i with
    | none => .error .nullPointer
    | some secname => do
      let text ← dumpSection d secname
      let rest ← dumpSections d nsec (i + 1)
      return text ++ rest

/-- `iniparser_dump_ini`; a value that is NULL cannot be written where there is no section. -/
def iniparserDumpIni (d : Dictionary) : Except MemoryFault (List Char) :=
  if iniparserGetnsec d < 1 then
    (SlotTable.entries DictSlot.entry d.slots).foldlM (fun text e =>
      match e.2 with
      | none => .error .nullPointer
      | some val => .ok (text ++ e.1 ++ [' ', '=', ' '] ++ val ++ ['\n'])) []
  else do
    let text ← dumpSections d (iniparserGetnsec d) 0
    return text ++ ['\n']

end PvfsProxy
