import Pacon.ClusterConfig
import Pacon.Lib.Separator
import Pacon.Barrier.Addressing
import Pacon.Barrier.Model

/-!
# What a server knows of the nodes

At its start a server reads its own address and the number of its clients from one file, and the addresses of
all servers, twice, from another. It waits at a barrier for the nodes of the one list, and broadcasts the end
of a round to the other.
-/

set_option linter.unusedSectionVars false

namespace Pacon.Barrier
open Lib ClusterConfig

/-- `fgets(temp, 24, fp)` on `local_config`; `none` where there is no file and where nothing is read. -/
def readLocal (file : Option CString) : Option CString := file.bind fun text =>
  let temp := (fgets 23 text).1
  if temp = [] then none else some temp

/-- `get_local_addr` and `get_local_addr_comm`; `none` where the address is longer than the buffer. -/
def getLocalAddr (file : Option CString) : Option CString := (readLocal file).bind fun temp =>
  let ip := temp.takeWhile addressChar
  if ip.length ≤ 16 then some ip else none

/-- `get_local_addr_cnum`: `local_ip`, which begins as zeros, and `client_num`; `none` where there is no colon
and where it is behind the buffer. -/
def getLocalAddrCnum (file : Option CString) : Option (CString × Int) := (readLocal file).bind fun temp =>
  let front := temp.takeWhile (· ≠ ':')
  if ':' ∈ temp ∧ front.length ≤ 16 then some (front.takeWhile addressChar, atoi (temp.drop (front.length + 1))) else none

/-- The loop of `is_loacl_addr` from `i` on, with `left` characters to go. -/
def sameChars (l t : CString) (i : Nat) : Nat → Bool
  | 0 => true
  | left + 1 => if l[i]? ≠ t[i]? then false else sameChars l t (i + 1) left

def isLocalAddr (l t : CString) : Bool := if l.length ≠ t.length then false else sameChars l t 0 l.length

def endpoint (ip : CString) : CString := "tcp://".toList ++ ip ++ ":12580".toList

/-- `server_mq` after `setup_servers_comm`: where each socket is connected to, NULL for the own address. -/
def connections (localIp : CString) (serverList : List CString) : List (Option CString) :=
  serverList.map fun ip => if isLocalAddr localIp ip then none else some (endpoint ip)

def broadcastTo (connections : List (Option CString)) : List CString := connections.filterMap id

def polled (localIp : CString) (nodeList : List CString) : List CString := nodeList.filter fun ip => localIp ≠ ip

structure Knowledge where
  localIp : CString
  clientNum : Int
  nodeList : List CString
  serverList : List CString
  bound : CString
  serverMq : List (Option CString)

/-- What `start_pacon_server` reads and sets up, with the files as they are from the directory of the server. -/
def startUp (files : CString → Option CString) : Option Knowledge := do
  let nodeList ← getClusterInfo files 1
  let ip ← getLocalAddr (files "../local_config".toList)
  let serverList ← getClusterInfoComm files
  let (localIp, clientNum) ← getLocalAddrCnum (files "../local_config".toList)
  some { localIp, clientNum, nodeList, serverList, bound := endpoint ip, serverMq := connections ip serverList }

/-- A cluster, with the two files of each server: the one is the same everywhere, the other has the address of
the node and the number of its clients in its first line. -/
structure Deployment (ι κ : Type) [DecidableEq ι] [Fintype κ] where
  nodes : Barrier.Config ι κ
  address : ι → CString
  injective : Function.Injective address
  nonempty : ∀ i, address i ≠ []
  short : ∀ i, (address i).length ≤ 15
  plain : ∀ i, ∀ c ∈ address i, addressChar c = true
  config : ClusterConfig.Config
  lists : config.addresses = nodes.nodeList.map address
  /-- What follows the first line, if a line break ends it. -/
  more : ι → Option CString

section
variable {ι κ : Type} [DecidableEq ι] [Fintype κ] (d : Deployment ι κ)

def Deployment.localConfig (i : ι) : CString :=
  d.address i ++ ':' :: (decimal (d.nodes.clientNum i) ++ (d.more i).elim [] ('\n' :: ·))

def Deployment.files (i : ι) (path : CString) : Option CString :=
  if path = "../config".toList then some d.config.text
  else if path = "../local_config".toList then some (d.localConfig i)
  else none

/-- The server is known by its address, and the others are those that it polls and that it broadcasts to, each
once and in the order of the list. -/
structure Deployment.Right (i : ι) (k : Knowledge) : Prop where
  localIp : k.localIp = d.address i
  clientNum : k.clientNum = d.nodes.clientNum i
  nodeList : k.nodeList = d.nodes.nodeList.map d.address
  serverList : k.serverList = d.nodes.nodeList.map d.address
  bound : k.bound = endpoint (d.address i)
  polls : polled k.localIp k.nodeList = (others d.nodes i).map d.address
  broadcasts : broadcastTo k.serverMq = (others d.nodes i).map fun j => endpoint (d.address j)

theorem sameChars_iff {l t : CString} {i left : Nat} :
    sameChars l t i left = true ↔ ∀ k, i ≤ k → k < i + left → l[k]? = t[k]? := by
  induction left generalizing i with
  | zero =>
      rw [sameChars]
      simp only [true_iff]
      intro k low high
      omega
  | succ left ih =>
      rw [sameChars]
      split
      · rename_i differs
        simp only [Bool.false_eq_true, false_iff, not_forall]
        exact ⟨i, Nat.le_refl i, by omega, differs⟩
      · rename_i same
        rw [ih]
        constructor
        · intro rest k low high
          by_cases here : k = i
          · subst here
            exact not_not.mp same
          · exact rest k (by omega) (by omega)
        · intro all k low high
          exact all k (by omega) (by omega)

theorem isLocalAddr_iff {l t : CString} : isLocalAddr l t = true ↔ l = t := by
  unfold isLocalAddr
  split
  · rename_i lengths
    simp only [Bool.false_eq_true, false_iff]
    exact fun same => lengths (congrArg List.length same)
  · rename_i lengths
    have lengths := not_not.mp lengths
    rw [sameChars_iff]
    constructor
    · intro all
      apply List.ext_getElem? fun k => ?_
      by_cases inside : k < l.length
      · exact all k (Nat.zero_le k) (by omega)
      · rw [List.getElem?_eq_none (by omega), List.getElem?_eq_none (by omega)]
    · rintro rfl k - -
      rfl

variable {d} {i : ι}

theorem polled_map (nodes : List ι) :
    polled (d.address i) (nodes.map d.address) = (nodes.filter (· ≠ i)).map d.address := by
  rw [polled, List.filter_map]
  congr 1
  apply List.filter_congr
  intro j _
  simp [d.injective.eq_iff, eq_comm]

theorem broadcastTo_map (nodes : List ι) : broadcastTo (connections (d.address i) (nodes.map d.address)) =
    (nodes.filter (· ≠ i)).map fun j => endpoint (d.address j) := by
  induction nodes with
  | nil => rfl
  | cons j nodes ih =>
      simp only [broadcastTo, connections, List.map_cons, List.filterMap_cons, id] at ih ⊢
      by_cases here : j = i
      · subst here
        rw [if_pos (isLocalAddr_iff.mpr rfl), List.filter_cons_of_neg (by simp)]
        exact ih
      · have apart : ¬isLocalAddr (d.address i) (d.address j) = true :=
          fun same => here (d.injective (isLocalAddr_iff.mp same)).symm
        rw [if_neg apart, List.filter_cons_of_pos (by simpa using here), List.map_cons, ← ih]

theorem atoi_of_digits {s : CString} (digits : ∀ c ∈ s, c.isDigit = true) : atoi s = Nat.ofDigitChars 10 s 0 := by
  have value : digitsValue s = Nat.ofDigitChars 10 s 0 := by
    rw [digitsValue, List.takeWhile_eq_self_iff.mpr digits]
  cases s with
  | nil => rfl
  | cons c s =>
      obtain ⟨space, minus, plus, -⟩ := digit_not_special (digits c List.mem_cons_self)
      unfold atoi
      simp only [List.dropWhile_cons, space, Bool.false_eq_true, ↓reduceIte]
      split
      · rename_i same
        exact absurd (List.cons.inj same).1 minus
      · rename_i same
        exact absurd (List.cons.inj same).1 plus
      · rw [← value]

theorem atoi_take_decimal {n k : Nat} (some' : 0 < k) (cut : k < (decimal n).length) : atoi ((decimal n).take k) ≠ n := by
  have digits : ∀ c ∈ (decimal n).take k, c.isDigit = true :=
    fun c member => isDigit_of_mem_decimal (List.mem_of_mem_take member)
  have small := ofDigitChars_lt digits
  rw [List.length_take_of_le cut.le] at small
  have large : ¬n < 10 ^ k := fun less => absurd ((length_decimal_le some').mpr less) (Nat.not_le.mpr cut)
  rw [atoi_of_digits digits]
  omega

theorem lineOf_append {line ending rest : CString} (noBreak : '\n' ∉ line)
    (ended : ending = ['\n'] ∨ ending = [] ∧ rest = []) : LineOf (line ++ ending) rest where
  whole := by
    rcases ended with rfl | ⟨rfl, -⟩
    · rwa [List.dropLast_concat]
    · rw [List.append_nil]
      exact fun member => noBreak (List.mem_of_mem_dropLast member)
  ends _ := by
    rcases ended with rfl | ⟨-, rfl⟩
    · exact .inl List.getLast?_concat
    · exact .inr rfl

theorem readLocal_localConfig (d : Deployment ι κ) (i : ι) : ∃ number,
    readLocal (some (d.localConfig i)) = some (d.address i ++ ':' :: number) ∧
      (atoi number = d.nodes.clientNum i ↔ (d.address i).length + 1 + (decimal (d.nodes.clientNum i)).length ≤ 23) := by
  have short := d.short i
  generalize size : d.nodes.clientNum i = n
  have noBreak : '\n' ∉ d.address i ++ ':' :: decimal n := by
    simp only [List.mem_append, List.mem_cons, not_or]
    refine ⟨fun member => absurd (d.plain i _ member) (by decide), by decide, fun member => ?_⟩
    exact absurd (isDigit_of_mem_decimal member) (by decide)
  obtain ⟨ending, rest, ended, text⟩ : ∃ ending rest, (ending = ['\n'] ∨ ending = [] ∧ rest = []) ∧
      d.localConfig i = (d.address i ++ ':' :: decimal n ++ ending) ++ rest := by
    rw [Deployment.localConfig, size]
    cases d.more i with
    | none => exact ⟨[], [], .inr ⟨rfl, rfl⟩, by simp⟩
    | some more => exact ⟨['\n'], more, .inl rfl, by simp⟩
  have begins : (d.address i ++ ':' :: decimal n ++ ending).take 23 =
      d.address i ++ ':' :: (decimal n ++ ending).take (22 - (d.address i).length) := by
    have room : 23 - (d.address i).length = 22 - (d.address i).length + 1 := by omega
    rw [List.append_assoc, List.take_append, List.take_of_length_le (by omega), room, List.cons_append, List.take_succ_cons]
  refine ⟨(decimal n ++ ending).take (22 - (d.address i).length), ?_, ?_⟩
  · rw [readLocal, Option.bind_some, text, fgets_line (lineOf_append noBreak ended) (by simp)]
    simp only [begins]
    rw [if_neg (by simp)]
  · by_cases fits : (d.address i).length + 1 + (decimal n).length ≤ 23
    · rw [List.take_append, List.take_of_length_le (by omega)]
      refine iff_of_true (atoi_decimal_append n _ fun c head => ?_) fits
      have last := List.mem_of_mem_take (List.mem_of_mem_head? head)
      rcases ended with rfl | ⟨rfl, -⟩
      · rw [List.mem_singleton.mp last]
        rfl
      · cases last
    · rw [List.take_append_of_le_length (by omega)]
      exact iff_of_false (atoi_take_decimal (by omega) (by omega)) fits

theorem getLocalAddr_of_read {file : Option CString} {number : CString}
    (read : readLocal file = some (d.address i ++ ':' :: number)) : getLocalAddr file = some (d.address i) := by
  have stops : (d.address i ++ ':' :: number).takeWhile addressChar = d.address i := by
    rw [List.takeWhile_append_of_pos (d.plain i), List.takeWhile_cons_of_neg (by decide), List.append_nil]
  simp only [getLocalAddr, read, Option.bind_some, stops]
  exact if_pos ((d.short i).trans (by decide))

theorem getLocalAddrCnum_of_read {file : Option CString} {number : CString}
    (read : readLocal file = some (d.address i ++ ':' :: number)) :
    getLocalAddrCnum file = some (d.address i, atoi number) := by
  have noColon : ':' ∉ d.address i := fun member => absurd (d.plain i _ member) (by decide)
  have behind : (d.address i ++ ':' :: number).drop ((d.address i).length + 1) = number := by
    rw [List.drop_append]
    simp
  simp only [getLocalAddrCnum, read, Option.bind_some, takeWhile_sep noColon, behind,
    List.takeWhile_eq_self_iff.mpr (d.plain i)]
  exact if_pos ⟨by simp, (d.short i).trans (by decide)⟩

theorem startUp_eq {number : CString}
    (read : readLocal (d.files i "../local_config".toList) = some (d.address i ++ ':' :: number)) :
    startUp (d.files i) = (clusterInfo (some d.config.text)).map fun list =>
      { localIp := d.address i
        clientNum := atoi number
        nodeList := list
        serverList := list
        bound := endpoint (d.address i)
        serverMq := connections (d.address i) list } := by
  have nodeList : getClusterInfo (d.files i) 1 = clusterInfo (some d.config.text) := rfl
  have serverList : getClusterInfoComm (d.files i) = clusterInfo (some d.config.text) := rfl
  rw [startUp, nodeList, serverList, getLocalAddr_of_read read, getLocalAddrCnum_of_read read]
  cases clusterInfo (some d.config.text) <;> rfl

/-- Every server knows the others exactly if there are no more than 16, every 16th character of each comment is a
'#', and the number of its clients is within what is read of the first line of its own file. -/
theorem startUp_right_iff [Nonempty ι] (d : Deployment ι κ) :
    (∀ i, ∃ k, startUp (d.files i) = some k ∧ d.Right i k) ↔
      d.config.addresses.length ≤ 16 ∧
        (∀ x ∈ d.config.all, x.1.address? = none → ∀ k c, x.2[16 * k]? = some c → c = '#') ∧
        ∀ i, (d.address i).length + 1 + (decimal (d.nodes.clientNum i)).length ≤ 23 := by
  have someAddress : d.config.addresses ≠ [] := by
    obtain ⟨i⟩ := ‹Nonempty ι›
    rw [d.lists]
    exact List.ne_nil_of_mem (List.mem_map_of_mem (d.nodes.complete i))
  constructor
  · intro right
    have known (i : ι) : clusterInfo (some d.config.text) = some d.config.addresses ∧
        (d.address i).length + 1 + (decimal (d.nodes.clientNum i)).length ≤ 23 := by
      obtain ⟨number, read, count⟩ := readLocal_localConfig d i
      obtain ⟨k, starts, knows⟩ := right i
      rw [startUp_eq read] at starts
      obtain ⟨list, lists, rfl⟩ := Option.map_eq_some_iff.mp starts
      rw [lists, d.lists]
      exact ⟨congrArg some knows.nodeList, count.mp knows.clientNum⟩
    obtain ⟨i⟩ := ‹Nonempty ι›
    obtain ⟨few, clean⟩ := (clusterInfo_iff someAddress).mp (known i).1
    exact ⟨few, clean, fun i => (known i).2⟩
  · rintro ⟨few, clean, fits⟩ i
    obtain ⟨number, read, count⟩ := readLocal_localConfig d i
    have starts := startUp_eq read
    rw [(clusterInfo_iff someAddress).mpr ⟨few, clean⟩, d.lists] at starts
    exact ⟨_, starts, rfl, count.mpr (fits i), rfl, rfl, rfl, polled_map _, broadcastTo_map _⟩

end

def nodeAddress (i : Bool) : CString := if i then ['1', '.', '2'] else ['1', '.', '1']

theorem nodeAddress_plain (i : Bool) : ∀ c ∈ nodeAddress i, addressChar c = true := by
  cases i <;> simp [nodeAddress, addressChar, Char.isDigit]

def nodeLine (i : Bool) : Line :=
  .address (nodeAddress i) (by cases i <;> decide) (by cases i <;> decide) (nodeAddress_plain i)

def twoServers : Deployment Bool Bool where
  nodes := .twoNodes fun _ _ => 1
  address := nodeAddress
  injective := by
    intro i j same
    cases i <;> cases j <;> first | rfl | exact absurd same (by decide)
  nonempty i := by cases i <;> decide
  short i := by cases i <;> decide
  plain := nodeAddress_plain
  config := ⟨[.comment ['a', 'l', 'l'] (by decide), nodeLine false, nodeLine true], none⟩
  lists := rfl
  more i := if i then none else some []

theorem startUp_right_two :
    ∃ k, startUp (twoServers.files false) = some k ∧ twoServers.Right false k := by
  have few : twoServers.config.addresses.length ≤ 16 := show 2 ≤ 16 by decide
  have clean : Clean twoServers.config.all := by
    refine List.forall_mem_cons.mpr ⟨fun _ => harmless_of_short rfl (by decide), fun x member comment => ?_⟩
    rcases List.mem_cons.mp member with rfl | member
    · cases comment
    · rw [List.mem_singleton.mp member] at comment
      cases comment
  exact (startUp_right_iff twoServers).mpr ⟨few, clean, fun i => by cases i <;> decide⟩ false

end Pacon.Barrier
