import PvfsProxy.IpLocations
import PvfsProxy.IniparserKeys

/-!
# Loading the configuration

`load_configuration` of `config.c` on the dictionary of the configuration file:
how many applications there are, and of each its name, weight, response time
and locations, under keys that are printed from its number into buffers of a
fixed size. The proxy exits where a weight or a response time is zero.

The scheduler's own settings are read behind this by its
`sch_load_data_from_config`. That `split_into_ranges` cuts the location values
in the dictionary is left out: each is read once. The names of the applications
are pointers into the dictionary, which is freed in the end.
-/

namespace PvfsProxy

open CString SlotTable

/-- What `app_name` points to. -/
inductive NamePtr where
  | null
  /-- a value of the dictionary -/
  | value (s : List Char)
  /-- a value of a dictionary that was freed -/
  | freed
deriving Repr, DecidableEq

/-- `struct app_statistics`, as far as `load_configuration` sets it. -/
structure ConfiguredApp where
  streamId : Int
  appName : NamePtr
  appWeight : Int
  appResponse : Int
  applicationLocations : List Location

structure Configuration where
  numApps : Int
  performanceInterval : Int
  appStats : List ConfiguredApp
  totalWeight : Int
  totalResponse : Int

/-- `"app%i"` for the application at index `i` -/
def currApp (i : Nat) : List Char := ['a', 'p', 'p'] ++ Nat.toDigits 10 (i + 1)

def appNameKey (i : Nat) : List Char := ['a', 'p', 'p', 's', ':'] ++ currApp i

def weightKey (i : Nat) : List Char := ['w', 'e', 'i', 'g', 'h', 't', 's', ':'] ++ currApp i

def latencyKey (i : Nat) : List Char :=
  ['l', 'a', 't', 'e', 'n', 'c', 'i', 'e', 's', ':'] ++ currApp i

/-- `"%s_locations"` -/
def currLocation (i : Nat) : List Char :=
  currApp i ++ ['_', 'l', 'o', 'c', 'a', 't', 'i', 'o', 'n', 's']

def countKey (i : Nat) : List Char := currLocation i ++ [':', 'c', 'o', 'u', 'n', 't']

/-- `"%s:location%i"` -/
def locationKey (i j : Nat) : List Char :=
  currLocation i ++ [':', 'l', 'o', 'c', 'a', 't', 'i', 'o', 'n'] ++ Nat.toDigits 10 (j + 1)

def appsCountKey : List Char := ['a', 'p', 'p', 's', ':', 'c', 'o', 'u', 'n', 't']

def intervalKey : List Char :=
  ['p', 'r', 'o', 'x', 'y', ':', 'p', 'e', 'r', 'f', 'o', 'r', 'm', 'a', 'n', 'c', 'e', '_',
    'i', 'n', 't', 'e', 'r', 'v', 'a', 'l']

/-- The string behind a pointer that is not `(char*)-1`. -/
def CharPtr.toVal : CharPtr → Option (List Char)
  | .str s => some s
  | _ => none

def CharPtr.toName (p : CharPtr) : NamePtr := p.toVal.elim .null .value

def NamePtr.freedict : NamePtr → NamePtr
  | null => null
  | _ => freed

/-- The location values from index `j` on; `location_string` has room for two digits. -/
def locationValues (dict : Dictionary) (i : Nat) : Nat → Nat →
    Except MemoryFault (List (Option (List Char)))
  | 0, _ => .ok []
  | n + 1, j =>
    if (Nat.toDigits 10 (j + 1)).length > 2 then .error .outside
    else do
      let values ← locationValues dict i n (j + 1)
      return (iniparserGetstring dict (locationKey i j) .null).toVal :: values

/-- The locations of an application. What `strtok` keeps is NULL before its first call. -/
def applicationLocations (i : Nat) (weight : Int) (junk : Nat → Location)
    (values : List (Option (List Char))) (saved : Option (List Char)) :
    Except MemoryFault (List Location × Option (List Char)) :=
  match saved, values with
  | none, [] => .ok ([], none)
  | none, none :: _ => .error .nullPointer
  | saved, values =>
    let (locations, saved) := loadLocations i weight junk values (saved.getD [])
    .ok (locations, some saved)

/-- One turn of the loop of `load_configuration`, without a result where the proxy
exits; `curr_app` has room for two digits. -/
def loadApplication (dict : Dictionary) (junk : Nat → Location) (i : Nat)
    (saved : Option (List Char)) :
    Except MemoryFault (Option (ConfiguredApp × Option (List Char))) :=
  if (currApp i).length + 1 > 6 then .error .outside
  else do
    let appWeight ← iniparserGetint dict (weightKey i) 0
    let appResponse ← iniparserGetint dict (latencyKey i) 0
    if appWeight = 0 then return none
    else if appResponse = 0 then return none
    else
      let numLocations ← iniparserGetint dict (countKey i) 0
      let values ← locationValues dict i numLocations.toNat 0
      let (locations, saved) ← applicationLocations i appWeight junk values saved
      let app : ConfiguredApp :=
        { streamId := 0
          appName := (iniparserGetstring dict (appNameKey i) .null).toName
          appWeight, appResponse
          applicationLocations := locations }
      return some (app, saved)

/-- The loop of `load_configuration` from application `i` on. -/
def loadApplications (dict : Dictionary) (junk : Nat → Nat → Location) : Nat → Nat →
    Option (List Char) → Except MemoryFault (Option (List ConfiguredApp))
  | 0, _, _ => .ok (some [])
  | n + 1, i, saved => do
    match ← loadApplication dict (junk i) i saved with
    | none => return none
    | some (app, saved) =>
      let apps ← loadApplications dict junk n (i + 1) saved
      return apps.map (app :: ·)

def intSum (ns : List Int) : Int := ns.foldl (fun total n => toInt32 (total + n)) 0

/-- `load_configuration`, without a result where the proxy exits. What fresh memory
holds is the parameter `junk`; a negative count of applications cannot be allocated. -/
def loadConfiguration (below : Char) (junk : Nat → Nat → Location) (file : List Char) :
    Except MemoryFault (Option Configuration) := do
  match ← iniparserLoad below file with
  | none => return none
  | some dict =>
    let numApps ← iniparserGetint dict appsCountKey 0
    let performanceInterval ← iniparserGetint dict intervalKey 5
    if numApps < 0 then .error .nullPointer
    else
      match ← loadApplications dict junk numApps.toNat 0 none with
      | none => return none
      | some appStats =>
        return some
          { numApps, performanceInterval
            appStats := appStats.map fun app => { app with appName := app.appName.freedict }
            totalWeight := intSum (appStats.map ConfiguredApp.appWeight)
            totalResponse := intSum (appStats.map ConfiguredApp.appResponse) }

end PvfsProxy
