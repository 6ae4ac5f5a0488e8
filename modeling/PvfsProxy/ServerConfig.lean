import PvfsProxy.Lib.CString
import PvfsProxy.Proxy2

/-!
# The other proxies

A DSFQ proxy finds the other proxies in the configuration of the file system, where each
server has a line `Alias name address`. It connects to every name but its own and then
accepts as many connections as there are such names. vDSFQ and its second version read the
file in the same words.
-/

namespace PvfsProxy

open CString

def aliasKey : List Char := ['A', 'l', 'i', 'a', 's', ' ']

/-- The name in a line: what stands between `Alias ` and the next blank. Without one the
length handed to `malloc` is negative. -/
def aliasName (line : List Char) : Except Fault (Option (List Char)) :=
  match strstr line 0 aliasKey with
  | none => .ok none
  | some alias1 =>
    match strstr line (alias1 + 6) [' '] with
    | none => .error .nullPointer
    | some alias2 => .ok (some ((line.drop (alias1 + 6)).take (alias2 - alias1 - 6)))

/-- The loop over the lines, which keeps the names that pass. Every token takes at least a
character, which bounds the turns. -/
def serverConfigLoop (keep : List Char → Bool) :
    Nat → Option (List Char) → List (List Char) → List Char → Except Fault (List (List Char))
  | 0, _, names, _ => .ok names
  | _ + 1, none, names, _ => .ok names
  | n + 1, some begins, names, saved => do
    let name ← aliasName begins
    let names := names ++ name.toList.filter keep
    let (begins, saved) := strtok '\n' none saved
    serverConfigLoop keep n begins names saved

/-- What `fread` and the NUL leave in `line`; `junk` is what was there before. -/
def serverConfigLine (junk file : List Char) : List Char :=
  (if file = [] then junk else file.take 9999).takeWhile (· ≠ '\x00')

/-- The reading of the file with the names to keep. -/
def readServerConfig (keep : List Char → Bool) (line : List Char) :
    Except Fault (List (List Char)) :=
  let (begins, saved) := strtok '\n' (some line) []
  serverConfigLoop keep (line.length + 1) begins [] saved

/-- `dsfq_parse_server_config`: what it returns, and `other_server_names`. The file is
missing where it cannot be opened. -/
def dsfqParseServerConfig (junk myhost : List Char) (serverConfig : Option (List Char)) :
    Except Fault (Int × List (List Char)) :=
  match serverConfig with
  | none => .ok (-1, [])
  | some file => do
    let names ← readServerConfig (fun tmp => tmp ≠ myhost) (serverConfigLine junk file)
    return (0, names)

/-- `vdsfq_parse_server_config`, in the same words. -/
def vdsfqParseServerConfig := dsfqParseServerConfig

/-- `vdsfq2_parse_server_config`, in the same words. -/
def vdsfq2ParseServerConfig := dsfqParseServerConfig

/-- The proxies `dsfq_init` connects to. -/
def otherServers (junk myhost : List Char) (serverConfig : Option (List Char)) :
    Except Fault (List (List Char)) := do
  let (ret, names) ← dsfqParseServerConfig junk myhost serverConfig
  if ret = 0 then return names else throw (.exit (-1))

/-! ## Lines -/

/-- A line of the configuration. -/
inductive ServerLine where
  | host (indent name address : List Char)
  | other (text : List Char)
deriving Repr, DecidableEq

namespace ServerLine

def text : ServerLine → List Char
  | host indent name address => indent ++ (aliasKey ++ (name ++ ' ' :: address))
  | other text => text

def name? : ServerLine → Option (List Char)
  | host _ name _ => some name
  | other _ => none

/-- The key stands in a line once at most, and its name has no blank in it. -/
def Formed : ServerLine → Prop
  | host indent name _ => ¬ aliasKey <:+: indent ∧ ' ' ∉ name
  | other text => ¬ aliasKey <:+: text

theorem firstAt_aliasKey {g s : List Char} (hs : s = [] ∨ ∃ s', s = 'A' :: s')
    (h : ¬ aliasKey <:+: g) :
    firstAt aliasKey (g ++ s) = (firstAt aliasKey s).map (g.length + ·) :=
  firstAt_append (by decide) hs h

theorem aliasName_text {l : ServerLine} (h : l.Formed) : aliasName l.text = .ok l.name? := by
  cases l with
  | host indent name address =>
      obtain ⟨hindent, hname⟩ := h
      have htext : (host indent name address).text
          = indent ++ (aliasKey ++ (name ++ ' ' :: address)) := rfl
      have hkey : strstr (host indent name address).text 0 aliasKey = some indent.length := by
        have hfirst : firstAt aliasKey (aliasKey ++ (name ++ ' ' :: address)) = some 0 :=
          firstAt_prefix (by decide)
        have hskip : firstAt aliasKey (indent ++ (aliasKey ++ (name ++ ' ' :: address)))
            = (firstAt aliasKey (aliasKey ++ (name ++ ' ' :: address))).map (indent.length + ·) :=
          firstAt_aliasKey (.inr ⟨_, rfl⟩) hindent
        unfold strstr
        rw [List.drop_zero, htext, hskip, hfirst]
        simp
      have hlength : (indent ++ aliasKey).length = indent.length + 6 := List.length_append
      have hblank : strstr (host indent name address).text (indent.length + 6) [' ']
          = some (indent.length + 6 + name.length) := by
        rw [htext, ← List.append_assoc, ← hlength, strstr_append, firstAt_char hname]
        rfl
      have htail : (host indent name address).text.drop (indent.length + 6)
          = name ++ ' ' :: address := by
        rw [htext, ← List.append_assoc, ← hlength, List.drop_left]
      unfold aliasName
      rw [hkey]
      dsimp only
      rw [hblank, htail]
      dsimp only
      rw [show indent.length + 6 + name.length - indent.length - 6 = name.length by omega,
        List.take_left]
      rfl
  | other text =>
      have hnone : strstr text 0 aliasKey = none := by
        have hfirst := firstAt_aliasKey (g := text) (.inl rfl) h
        rw [List.append_nil] at hfirst
        unfold strstr
        rw [List.drop_zero, hfirst]
        rfl
      show aliasName text = _
      unfold aliasName
      rw [hnone]
      rfl

def unlines (ls : List ServerLine) : List Char := ls.flatMap fun l => l.text ++ ['\n']

theorem unlines_cons (l : ServerLine) (ls : List ServerLine) :
    unlines (l :: ls) = l.text ++ '\n' :: unlines ls := by
  unfold unlines
  rw [List.flatMap_cons, List.append_assoc]
  rfl

end ServerLine

open ServerLine

/-! ## Files -/

theorem strtok_delim {delim : Char} {s saved : List Char} (saved' : List Char) :
    strtok delim (some (delim :: s)) saved = strtok delim (some s) saved' := by
  have hskip : (delim :: s).dropWhile (· == delim) = s.dropWhile (· == delim) :=
    List.dropWhile_cons_of_pos (beq_self_eq_true delim)
  unfold strtok
  rw [Option.getD_some, Option.getD_some, hskip]

/-- The loop collects the names of the lines that are left. -/
theorem serverConfigLoop_lines (keep : List Char → Bool) {ls : List ServerLine} {n : Nat}
    (names : List (List Char)) (saved : List Char)
    (hls : ∀ l ∈ ls, l.Formed ∧ '\n' ∉ l.text) (hn : (unlines ls).length < n) :
    serverConfigLoop keep n (strtok '\n' (some (unlines ls)) saved).1 names
        (strtok '\n' (some (unlines ls)) saved).2
      = .ok (names ++ (ls.filterMap ServerLine.name?).filter keep) := by
  induction ls generalizing n names saved with
  | nil =>
      obtain ⟨n, rfl⟩ := Nat.exists_eq_succ_of_ne_zero (Nat.ne_of_gt (Nat.zero_lt_of_lt hn))
      rw [List.filterMap_nil, List.filter_nil, List.append_nil]
      rfl
  | cons l ls ih =>
      obtain ⟨hl, hls⟩ := List.forall_mem_cons.mp hls
      rw [unlines_cons] at hn ⊢
      rw [List.length_append, List.length_cons] at hn
      by_cases hempty : l.text = []
      · have hnone : l.name? = none := by
          have hname := aliasName_text hl.1
          rw [hempty] at hname
          exact (Except.ok.inj hname).symm
        rw [hempty, List.nil_append, strtok_delim saved,
          List.filterMap_cons_none hnone]
        exact ih names saved hls (by omega)
      · obtain ⟨n, rfl⟩ := Nat.exists_eq_succ_of_ne_zero (Nat.ne_of_gt (Nat.zero_lt_of_lt hn))
        rw [strtok_append hempty hl.2]
        unfold serverConfigLoop
        rw [aliasName_text hl.1]
        have hrest := ih (names ++ l.name?.toList.filter keep) (unlines ls) hls (n := n) (by omega)
        refine hrest.trans ?_
        rw [List.append_assoc, ← List.filter_append]
        cases hname : l.name? with
        | none => rw [List.filterMap_cons_none hname, Option.toList_none, List.nil_append]
        | some name =>
            rw [List.filterMap_cons_some hname, Option.toList_some, List.singleton_append]

theorem serverConfigLoop_filter (keep : List Char → Bool) {n : Nat} {begins : Option (List Char)}
    (names : List (List Char)) {saved : List Char} :
    serverConfigLoop keep n begins (names.filter keep) saved
      = (serverConfigLoop (fun _ => true) n begins names saved).map (List.filter keep) := by
  induction n generalizing begins names saved with
  | zero => rfl
  | succ n ih =>
      cases begins with
      | none => rfl
      | some line =>
          unfold serverConfigLoop
          cases aliasName line with
          | error f => rfl
          | ok name =>
              refine Eq.trans ?_ (ih (names ++ name.toList.filter fun _ => true))
              show serverConfigLoop keep n _ (names.filter keep ++ name.toList.filter keep) _ = _
              rw [← List.filter_append, List.filter_true]

theorem readServerConfig_filter (keep : List Char → Bool) (line : List Char) :
    readServerConfig keep line
      = (readServerConfig (fun _ => true) line).map (List.filter keep) :=
  serverConfigLoop_filter keep []

/-- **The other servers in the configuration.** A file of one line or more and at most 9999
bytes, in whose lines `Alias ` stands once at most, before a name without a blank and with
one behind it, gives the names in the order of the file, but for the host's own. -/
theorem other_servers_listed {junk myhost : List Char} {ls : List ServerLine}
    (hls : ∀ l ∈ ls, l.Formed ∧ '\n' ∉ l.text ∧ '\x00' ∉ l.text)
    (hlength : (unlines ls).length ≤ 9999) (hne : ls ≠ []) :
    otherServers junk myhost (some (unlines ls))
      = .ok ((ls.filterMap ServerLine.name?).filter fun name => name ≠ myhost) := by
  have hfile : unlines ls ≠ [] := by
    obtain ⟨l, ls, rfl⟩ := List.exists_cons_of_ne_nil hne
    rw [unlines_cons]
    exact List.append_ne_nil_of_right_ne_nil _ (List.cons_ne_nil _ _)
  have hnul : ∀ c ∈ unlines ls, decide (c ≠ '\x00') = true := by
    intro c hc
    obtain ⟨l, hl, hc⟩ := List.mem_flatMap.mp hc
    rw [decide_eq_true_eq]
    rintro rfl
    rcases List.mem_append.mp hc with htext | hend
    · exact (hls l hl).2.2 htext
    · exact absurd (List.mem_singleton.mp hend) (by decide)
  have hline : serverConfigLine junk (unlines ls) = unlines ls := by
    unfold serverConfigLine
    rw [if_neg hfile, List.take_of_length_le hlength]
    exact List.takeWhile_eq_self_iff.mpr hnul
  have hread : readServerConfig (fun tmp => tmp ≠ myhost) (unlines ls)
      = .ok ((ls.filterMap ServerLine.name?).filter fun name => name ≠ myhost) :=
    serverConfigLoop_lines _ [] [] (fun l hl => ⟨(hls l hl).1, (hls l hl).2.1⟩)
      (Nat.lt_succ_self _)
  unfold otherServers dsfqParseServerConfig
  dsimp only
  rw [hline, hread]
  rfl

/-- The configuration of two servers. -/
def twoServers : List ServerLine :=
  [.other ['<', 'A', 'l', 'i', 'a', 's', 'e', 's', '>'], .host ['\t'] ['n', '1'] ['t', 'c', 'p'],
    .host ['\t'] ['n', '2'] ['t', 'c', 'p'],
    .other ['<', '/', 'A', 'l', 'i', 'a', 's', 'e', 's', '>']]

instance : DecidablePred ServerLine.Formed
  | .host indent name _ => inferInstanceAs (Decidable (¬ aliasKey <:+: indent ∧ ' ' ∉ name))
  | .other text => inferInstanceAs (Decidable (¬ aliasKey <:+: text))

theorem other_servers_listed_example :
    otherServers [] ['n', '1'] (some (unlines twoServers)) = .ok [['n', '2']] :=
  other_servers_listed (by decide) (by decide) (by decide)

/-! ## The start -/

/-- All proxies read the same names. -/
theorem otherServers_listed {junk a₀ : List Char} {file : Option (List Char)}
    {names₀ : List (List Char)} (h : otherServers junk a₀ file = .ok names₀) :
    ∃ listed : List (List Char),
      ∀ a, otherServers junk a file = .ok (listed.filter fun name => name ≠ a) := by
  cases file with
  | none => cases h
  | some text =>
      unfold otherServers dsfqParseServerConfig at h ⊢
      dsimp only at h ⊢
      cases hall : readServerConfig (fun _ => true) (serverConfigLine junk text) with
      | error f =>
          rw [readServerConfig_filter, hall] at h
          cases h
      | ok listed =>
          refine ⟨listed, fun a => ?_⟩
          rw [readServerConfig_filter, hall]
          rfl

/-- How many of the hosts connect to `a`, by the names they read. -/
def connecting (hosts : List (List Char)) (peers : List Char → List (List Char))
    (a : List Char) : Nat :=
  (hosts.filter fun b => a ∈ peers b).length

theorem length_filter_ne {a : List Char} {l : List (List Char)} (hl : l.Nodup) (ha : a ∈ l) :
    (l.filter fun name => name ≠ a).length + 1 = l.length := by
  have herase : l.filter (fun name => name ≠ a) = l.erase a := by
    rw [hl.erase_eq_filter]
    exact List.filter_congr fun b _ => Bool.eq_iff_iff.mpr (by simp)
  rw [herase, List.length_erase_of_mem ha]
  have hpos := List.length_pos_of_mem ha
  omega

/-- Every other host connects to a host that is listed. -/
theorem connecting_listed {listed hosts : List (List Char)} {a : List Char} (ha : a ∈ listed) :
    connecting hosts (fun b => listed.filter fun name => name ≠ b) a
      = (hosts.filter fun name => name ≠ a).length := by
  unfold connecting
  refine congrArg List.length (List.filter_congr fun b _ => decide_eq_decide.mpr ?_)
  rw [List.mem_filter, decide_eq_true_eq]
  exact ⟨fun h heq => h.2 heq.symm, fun h => ⟨ha, fun heq => h heq.symm⟩⟩

end PvfsProxy
