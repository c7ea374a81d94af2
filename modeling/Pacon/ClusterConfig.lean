import Mathlib.Data.List.Basic
import Pacon.Lib.Fgets

/-!
# The list of the servers

Three functions read the addresses of the nodes from a file, in pieces of 16 characters. A line that
begins with a '#' is a comment.
-/

namespace Pacon.ClusterConfig
open Lib

def nodeMax : Nat := 64

def addressChar (c : Char) : Bool := c.isDigit || c = '.'

/-- What ends up in `node_list[i]`. The bound of the loop is one on `i`; the terminator behind the piece
ends it in any case. -/
def copied (i : Nat) (ip : CString) : CString := if i < 16 then ip.takeWhile addressChar else []

/-- The loop over the pieces, with the entries so far; `none` where the function returns -1. -/
def readLoop : List CString → List CString → Option (List CString)
  | [], list => if list = [] then none else some list
  | ip :: rest, list =>
      if ip.head? = some '#' then readLoop rest list
      else if list.length + 1 ≥ nodeMax then none
      else readLoop rest (list ++ [copied list.length ip])

/-- What the three functions have in common behind `fopen`: `fgets(ip, 17, fp)` reads 16 characters. -/
def clusterInfo (file : Option CString) : Option (List CString) := file.bind fun text => readLoop (pieces 15 text) []

def configFilePath (configType : Int) : CString := if configType = 0 then "./config".toList else "../config".toList

section
variable (files : CString → Option CString)

def getClusterInfo (configType : Int) : Option (List CString) := clusterInfo (files (configFilePath configType))

def getRemoteClusterInfo (cfPath : CString) : Option (List CString) := clusterInfo (files cfPath)

def getClusterInfoComm : Option (List CString) := clusterInfo (files "../config".toList)

end

inductive Line
  | address (text : CString) (nonempty : text ≠ []) (short : text.length ≤ 15)
      (plain : ∀ c ∈ text, addressChar c = true)
  | comment (text : CString) (noBreak : '\n' ∉ text)

def Line.text : Line → CString
  | .address text _ _ _ => text
  | .comment text _ => '#' :: text

def Line.address? : Line → Option CString
  | .address text _ _ _ => some text
  | .comment _ _ => none

structure Config where
  lines : List Line
  last : Option Line

def Config.all (config : Config) : List (Line × CString) :=
  config.lines.map (fun line => (line, line.text ++ ['\n'])) ++ config.last.toList.map fun line => (line, line.text)

def Config.text (config : Config) : CString := (config.all.map Prod.snd).flatten

def Config.addresses (config : Config) : List CString := config.all.filterMap fun x => x.1.address?

def Exact (config : Config) : Prop :=
  ∀ files : CString → Option CString,
    (∀ configType, files (configFilePath configType) = some config.text →
      getClusterInfo files configType = some config.addresses) ∧
    (∀ cfPath, files cfPath = some config.text → getRemoteClusterInfo files cfPath = some config.addresses) ∧
    (files "../config".toList = some config.text → getClusterInfoComm files = some config.addresses)

/-- No part of the comment can be taken for a line of its own. -/
def Harmless (comment : CString) : Prop := ∀ k c, comment[16 * k]? = some c → c = '#'

def kept (ps : List CString) : List CString := ps.filter fun ip => ip.head? ≠ some '#'

theorem kept_skipped {ip : CString} (skipped : ip.head? = some '#') (ps : List CString) : kept (ip :: ps) = kept ps :=
  List.filter_cons_of_neg (by simp [skipped])

theorem kept_entry {ip : CString} (entry : ip.head? ≠ some '#') (ps : List CString) :
    kept (ip :: ps) = ip :: kept ps :=
  List.filter_cons_of_pos (by simp [entry])

theorem readLoop_of_few {ps list : List CString} (few : list.length + (kept ps).length ≤ 16)
    (some' : list ≠ [] ∨ kept ps ≠ []) :
    readLoop ps list = some (list ++ (kept ps).map (List.takeWhile addressChar)) := by
  induction ps generalizing list with
  | nil =>
      have other : list ≠ [] := some'.resolve_right (not_not.mpr rfl)
      rw [readLoop, if_neg other]
      simp [kept]
  | cons ip ps ih =>
      rw [readLoop]
      split
      · rename_i skipped
        rw [kept_skipped skipped] at few some' ⊢
        exact ih few some'
      · rename_i entry
        rw [kept_entry entry, List.length_cons] at few
        have room : ¬list.length + 1 ≥ nodeMax := by
          have : nodeMax = 64 := rfl
          omega
        rw [if_neg room, ih (by rw [List.length_append, List.length_singleton]; omega) (.inl (by simp)), copied,
          if_pos (by omega), kept_entry entry, List.append_assoc]
        rfl

theorem readLoop_some {ps list out : List CString} (read : readLoop ps list = some out) :
    out.length = list.length + (kept ps).length ∧ list <+: out ∧
      ∀ i, list.length ≤ i → 16 ≤ i → i < out.length → out[i]? = some [] := by
  induction ps generalizing list with
  | nil =>
      rw [readLoop] at read
      split at read
      · cases read
      · cases read
        exact ⟨rfl, List.prefix_rfl, fun i behind _ inside => absurd inside (Nat.not_lt.mpr behind)⟩
  | cons ip ps ih =>
      rw [readLoop] at read
      split at read
      · rename_i skipped
        rw [kept_skipped skipped]
        exact ih read
      · rename_i entry
        split at read
        · cases read
        · obtain ⟨length, front, empty⟩ := ih read
          rw [List.length_append, List.length_singleton] at length empty
          rw [kept_entry entry, List.length_cons]
          refine ⟨by omega, (List.prefix_append _ _).trans front, fun i behind high inside => ?_⟩
          by_cases here : i = list.length
          · subst here
            obtain ⟨rest, rfl⟩ := front
            rw [List.append_assoc, List.getElem?_append_right le_rfl, Nat.sub_self, copied,
              if_neg (Nat.not_lt.mpr high)]
            rfl
          · exact empty i (by omega) high inside

def Raw (line : Line) (raw : CString) : Prop := raw = line.text ∨ raw = line.text ++ ['\n']

variable {config : Config} {line : Line} {raw text : CString}

theorem raw_of_mem {x : Line × CString} (member : x ∈ config.all) : Raw x.1 x.2 := by
  rcases List.mem_append.mp member with inside | last
  · obtain ⟨line, -, rfl⟩ := List.mem_map.mp inside
    exact .inr rfl
  · obtain ⟨line, -, rfl⟩ := List.mem_map.mp last
    exact .inl rfl

theorem Line.noBreak (line : Line) : '\n' ∉ line.text := by
  cases line with
  | address text nonempty short plain =>
      intro member
      exact absurd (plain _ member) (by decide)
  | comment text noBreak => simpa [Line.text] using noBreak

theorem lineOf_ended (line : Line) (rest : CString) : LineOf (line.text ++ ['\n']) rest where
  whole := by
    rw [List.dropLast_concat]
    exact line.noBreak
  ends _ := .inl List.getLast?_concat

theorem lineOf_raw (is : Raw line raw) : LineOf raw [] := by
  rcases is with rfl | rfl
  · exact ⟨fun member => line.noBreak ((List.dropLast_sublist _).subset member), fun _ => .inr rfl⟩
  · exact lineOf_ended line []

theorem pieces_text (config : Config) : pieces 15 config.text = config.all.flatMap fun x => pieces 15 x.2 := by
  have ended (lines : List Line) (rest : CString) :
      pieces 15 (((lines.map fun line => (line, line.text ++ ['\n'])).map Prod.snd).flatten ++ rest) =
        ((lines.map fun line => (line, line.text ++ ['\n'])).flatMap fun x => pieces 15 x.2) ++ pieces 15 rest := by
    induction lines with
    | nil => rfl
    | cons line lines ih =>
        simp only [List.map_cons, List.flatten_cons, List.flatMap_cons, List.append_assoc]
        rw [← List.append_assoc line.text, pieces_append (lineOf_ended line _), ih]
  rw [Config.text, Config.all, List.map_append, List.flatten_append, ended, List.flatMap_append]
  cases config.last <;> simp

theorem kept_address {nonempty : text ≠ []} {short : text.length ≤ 15} {plain : ∀ c ∈ text, addressChar c = true}
    (is : Raw (.address text nonempty short plain) raw) :
    kept (pieces 15 raw) = [raw] ∧ raw.takeWhile addressChar = text := by
  have fits : raw.length ≤ 16 := by
    rcases is with rfl | rfl
    · exact short.trans (Nat.le_succ _)
    · rw [List.length_append]
      exact Nat.succ_le_succ short
  have begins : raw.head? = text.head? := by
    rcases is with rfl | rfl
    · rfl
    · exact List.head?_append_of_ne_nil _ nonempty
  have other : raw ≠ [] := by
    rintro rfl
    exact nonempty (List.head?_eq_none_iff.mp begins.symm)
  have entry : raw.head? ≠ some '#' := by
    rw [begins]
    intro sharp
    exact absurd (plain _ (List.mem_of_head? sharp)) (by decide)
  constructor
  · rw [pieces_line (lineOf_raw is) other, List.take_of_length_le fits, List.drop_of_length_le fits, pieces_nil,
      kept_entry entry]
    rfl
  · rcases is with rfl | rfl
    · exact List.takeWhile_eq_self_iff.mpr plain
    · rw [Line.text, List.takeWhile_append_of_pos plain]
      exact List.append_nil _

theorem kept_comment (is : Raw line raw) : kept (pieces 15 raw) = [] ↔ Harmless raw := by
  have begin := pieces_begin (n := 15) (p := (· = '#')) (lineOf_raw is)
  rw [kept, List.filter_eq_nil_iff, Harmless, ← begin]
  constructor
  · intro skipped piece member c head
    have sharp := skipped piece member
    rw [head] at sharp
    simpa using sharp
  · intro sharp piece member
    obtain ⟨c, rest, rfl⟩ := List.exists_cons_of_ne_nil (ne_nil_of_mem_pieces member)
    simp [sharp _ member c rfl]

def Clean (all : List (Line × CString)) : Prop := ∀ x ∈ all, x.1.address? = none → Harmless x.2

theorem kept_all {all : List (Line × CString)} (raws : ∀ x ∈ all, Raw x.1 x.2) :
    (all.filterMap fun x => x.1.address?).length ≤ (kept (all.flatMap fun x => pieces 15 x.2)).length ∧
    ((kept (all.flatMap fun x => pieces 15 x.2)).length ≤ (all.filterMap fun x => x.1.address?).length →
      Clean all) ∧
    (Clean all → (kept (all.flatMap fun x => pieces 15 x.2)).map (List.takeWhile addressChar) =
      all.filterMap fun x => x.1.address?) := by
  induction all with
  | nil => exact ⟨le_rfl, fun _ x member => absurd member List.not_mem_nil, fun _ => rfl⟩
  | cons x all ih =>
      obtain ⟨atLeast, clean, entries⟩ := ih fun y member => raws y (List.mem_cons_of_mem _ member)
      have split : kept ((x :: all).flatMap fun x => pieces 15 x.2) =
          kept (pieces 15 x.2) ++ kept (all.flatMap fun x => pieces 15 x.2) := by
        rw [List.flatMap_cons, kept, List.filter_append]
        rfl
      have is := raws x List.mem_cons_self
      obtain ⟨line, raw⟩ := x
      cases line with
      | address text nonempty short plain =>
          obtain ⟨one, address⟩ := kept_address is
          have more : ((Line.address text nonempty short plain, raw) :: all).filterMap (fun x => x.1.address?) =
              text :: all.filterMap fun x => x.1.address? := rfl
          rw [split, one, more]
          refine ⟨Nat.succ_le_succ atLeast, fun few => ?_, fun cleanAll => ?_⟩
          · have cleanRest := clean (Nat.le_of_succ_le_succ few)
            exact List.forall_mem_cons.mpr ⟨fun none => absurd none (Option.some_ne_none text), cleanRest⟩
          · have cleanRest := (List.forall_mem_cons.mp cleanAll).2
            rw [List.singleton_append, List.map_cons, address, entries cleanRest]
      | comment text noBreak =>
          have same : ((Line.comment text noBreak, raw) :: all).filterMap (fun x => x.1.address?) =
              all.filterMap fun x => x.1.address? := rfl
          rw [split, same, List.length_append]
          refine ⟨atLeast.trans (Nat.le_add_left _ _), fun few => ?_, fun cleanAll => ?_⟩
          · dsimp only at few
            have nothing : kept (pieces 15 raw) = [] := List.eq_nil_of_length_eq_zero (by omega)
            have cleanRest := clean (by omega)
            exact List.forall_mem_cons.mpr ⟨fun _ => (kept_comment is).mp nothing, cleanRest⟩
          · obtain ⟨harmless, cleanRest⟩ := List.forall_mem_cons.mp cleanAll
            rw [(kept_comment is).mpr (harmless rfl), List.nil_append, entries cleanRest]

theorem clusterInfo_iff (someAddress : config.addresses ≠ []) :
    clusterInfo (some config.text) = some config.addresses ↔ config.addresses.length ≤ 16 ∧ Clean config.all := by
  obtain ⟨atLeast, clean, entries⟩ := kept_all fun x (member : x ∈ config.all) => raw_of_mem member
  rw [clusterInfo, Option.bind_some, pieces_text]
  constructor
  · intro read
    obtain ⟨length, -, empty⟩ := readLoop_some read
    rw [List.length_nil, Nat.zero_add] at length
    refine ⟨?_, clean length.ge⟩
    by_contra more
    have last := empty 16 (Nat.zero_le _) le_rfl (Nat.not_le.mp more)
    obtain ⟨x, -, isEmpty⟩ := List.mem_filterMap.mp (List.mem_of_getElem? last)
    obtain ⟨line, raw⟩ := x
    cases line with
    | address text nonempty short plain => exact nonempty (Option.some.inj isEmpty)
    | comment text noBreak => cases isEmpty
  · rintro ⟨few, cleanAll⟩
    have exactly := entries cleanAll
    have length := congrArg List.length exactly
    rw [List.length_map] at length
    rw [readLoop_of_few, exactly]
    · rfl
    · rwa [List.length_nil, Nat.zero_add, length]
    · refine .inr fun nothing => someAddress ?_
      rw [nothing] at exactly
      exact exactly.symm

/-- The three functions read the addresses of the file exactly if there are no more than 16 of them and every
16th character of each comment is a '#'. -/
theorem cluster_config_exact_iff (someAddress : config.addresses ≠ []) :
    Exact config ↔ config.addresses.length ≤ 16 ∧
      ∀ x ∈ config.all, x.1.address? = none → ∀ k c, x.2[16 * k]? = some c → c = '#' := by
  constructor
  · intro same
    have read := (same fun _ => some config.text).2.2 rfl
    exact (clusterInfo_iff someAddress).mp read
  · intro clean files
    have read := (clusterInfo_iff someAddress).mpr clean
    refine ⟨fun configType there => ?_, fun cfPath there => ?_, fun there => ?_⟩
    · rw [getClusterInfo, there, read]
    · rw [getRemoteClusterInfo, there, read]
    · rw [getClusterInfoComm, there, read]

theorem harmless_of_short {comment : CString} (begins : comment.head? = some '#') (short : comment.length ≤ 16) :
    Harmless comment := by
  intro k c there
  cases k with
  | zero =>
      rw [Nat.mul_zero, ← List.head?_eq_getElem?, begins] at there
      exact (Option.some.inj there).symm
  | succ k =>
      have behind : comment.length ≤ 16 * (k + 1) := by
        rw [Nat.mul_succ]
        exact Nat.le_add_left_of_le short
      rw [List.getElem?_eq_none behind] at there
      cases there

def node : Line := .address ['1', '.', '2'] (by decide) (by decide) (by simp [addressChar, Char.isDigit])

def commented (text : CString) (noBreak : '\n' ∉ text) : Config := ⟨[.comment text noBreak, node], none⟩

theorem cluster_config_exact_short : Exact (commented ['n', 'o', 'd', 'e'] (by decide)) := by
  have one : (commented ['n', 'o', 'd', 'e'] (by decide)).addresses = [['1', '.', '2']] := rfl
  apply (cluster_config_exact_iff (one ▸ List.cons_ne_nil _ _)).mpr
  refine ⟨by rw [one]; decide, List.forall_mem_cons.mpr ⟨fun _ => ?_, fun x member address => ?_⟩⟩
  · exact harmless_of_short rfl (by decide)
  · rw [List.mem_singleton.mp member] at address
    cases address

theorem cluster_config_fails :
    ¬Exact (commented (List.replicate 16 'a') (by decide)) ∧ ¬Exact ⟨List.replicate 17 node, none⟩ := by
  constructor
  · intro same
    have one : (commented (List.replicate 16 'a') (by decide)).addresses = [['1', '.', '2']] := rfl
    have read := (same fun _ => some (commented (List.replicate 16 'a') (by decide)).text).2.2 rfl
    have clean := ((clusterInfo_iff (one ▸ List.cons_ne_nil _ _)).mp read).2
    have sharp : 'a' = '#' := clean _ List.mem_cons_self rfl 1 'a' rfl
    exact absurd sharp (by decide)
  · intro same
    have all : (Config.mk (List.replicate 17 node) none).addresses = List.replicate 17 ['1', '.', '2'] := rfl
    have read := (same fun _ => some (Config.mk (List.replicate 17 node) none).text).2.2 rfl
    have few := ((clusterInfo_iff (all ▸ List.cons_ne_nil _ _)).mp read).1
    rw [all] at few
    exact absurd few (by decide)

end Pacon.ClusterConfig
