import Awds.Lib.FirstBest
import Awds.Lib.Inet

/-!
# Which interface is ours: `guess_iface`

| here | there |
| --- | --- |
| `Ifreq`          | what the three `ioctl`s give of an interface (`guess_iface.cc:39`, `:55`, `:62`) |
| `Ifreq.lev`      | the body of the loop over the interfaces (:47) |
| `guessIfaceAt`   | `guess_iface(int, char *)` (:24) |
| `guessIface`     | `guess_iface(char *)` (:82) |

The `ioctl`s succeed. `guess_iface_best`: the search ends with the first of the best interfaces if there is any
interface, and does not end if there is none.
-/

namespace Posix

open Inet

structure Ifreq where
  /-- `ifr_name` -/
  name : List Char
  /-- `ifr_flags` -/
  flags : UInt16
  /-- `s_addr` of `ifr_addr`, which lies in memory as in every `sockaddr` -/
  addr : UInt32
deriving DecidableEq

def IFF_UP : UInt16 := 0x1

def IFF_BROADCAST : UInt16 := 0x2

def IFF_LOOPBACK : UInt16 := 0x8

def MAX_DEV : Nat := 12

/-- Where `t` is in `s` for the first time. -/
def strstr (s t : List Char) : Option Nat := s.tails.findIdx? fun u => t.isPrefixOf u

namespace Ifreq

def addrString (o : ByteOrder) (i : Ifreq) : List Char := inetNtoa o i.addr

/-- `lev` at the end of the body (:47-:71). -/
def lev (o : ByteOrder) (level : Int) (i : Ifreq) : Int :=
  let lev := level
  let lev := if (strstr i.name "wlan".toList).isSome then lev - 1 else lev
  let lev := if i.flags &&& IFF_UP ≠ 0 then lev - 1 else lev
  let lev := if i.flags &&& IFF_BROADCAST ≠ 0 then lev - 1 else lev
  let lev := if i.flags &&& IFF_LOOPBACK ≠ 0 then lev + 1 else lev
  let lev := if strstr (i.addrString o) "10.".toList = some 0 then lev - 1 else lev
  if strstr (i.addrString o) "192.168.".toList = some 0 then lev - 1 else lev

end Ifreq

/-- The loop over the interfaces (:45). -/
def scan (o : ByteOrder) (level : Int) : List Ifreq → Option (List Char)
  | [] => none
  | i :: devList => if i.lev o level = 0 then some (i.addrString o) else scan o level devList

/-- `guess_iface(level, ip_addr)` (:24): what is copied to `ip_addr`, if it returns `true`. `SIOCGIFCONF` gives no more
interfaces than there is room for. -/
def guessIfaceAt (o : ByteOrder) (table : List Ifreq) (level : Int) : Option (List Char) := scan o level (table.take MAX_DEV)

/-- The loop of `guess_iface(ret)` (:86), at most `fuel` rounds. -/
def guessLoop (o : ByteOrder) (table : List Ifreq) : Nat → Int → Option (List Char)
  | 0, _ => none
  | fuel + 1, lvl =>
    match guessIfaceAt o table lvl with
    | some addr => some addr
    | none => guessLoop o table fuel (lvl - 1)

/-- `guess_iface(ret)` (:82). -/
def guessIface (o : ByteOrder) (table : List Ifreq) (fuel : Nat) : Option (List Char) := guessLoop o table fuel 5

/-! ## Scores -/

/-- A point for each of these, and one off for a loopback device. -/
def Ifreq.score (o : ByteOrder) (i : Ifreq) : Int :=
  (if "wlan".toList <:+: i.name then 1 else 0) + (if i.flags &&& IFF_UP ≠ 0 then 1 else 0) +
    (if i.flags &&& IFF_BROADCAST ≠ 0 then 1 else 0) + (if "10.".toList <+: i.addrString o then 1 else 0) +
    (if "192.168.".toList <+: i.addrString o then 1 else 0) - if i.flags &&& IFF_LOOPBACK ≠ 0 then 1 else 0

section Strstr

variable {s t : List Char}

theorem strstr_isSome : (strstr s t).isSome = true ↔ t <:+: s := by
  rw [strstr, List.findIdx?_isSome, List.any_eq_true]
  constructor
  · rintro ⟨u, hu, hpre⟩
    exact List.infix_iff_prefix_suffix.2 ⟨u, List.isPrefixOf_iff_prefix.1 hpre, (List.mem_tails u s).1 hu⟩
  · intro h
    obtain ⟨u, hpre, hu⟩ := List.infix_iff_prefix_suffix.1 h
    exact ⟨u, (List.mem_tails u s).2 hu, List.isPrefixOf_iff_prefix.2 hpre⟩

theorem strstr_eq_zero : strstr s t = some 0 ↔ t <+: s := by
  rw [← List.isPrefixOf_iff_prefix, strstr]
  -- the first tail is `s` itself
  cases s with
  | nil => simp [List.findIdx?_cons]
  | cons c s =>
    rw [List.tails_cons, List.findIdx?_cons]
    split <;> simp_all

end Strstr

section Point

variable (p : Prop) [Decidable p]

theorem point_nonneg : 0 ≤ (if p then 1 else 0 : Int) := by
  split <;> decide

theorem point_le_one : (if p then 1 else 0 : Int) ≤ 1 := by
  split <;> decide

theorem ite_sub_one (n : Int) : (if p then n - 1 else n) = n - if p then 1 else 0 := by
  split
  · rfl
  · exact (sub_zero n).symm

theorem ite_add_one (n : Int) : (if p then n + 1 else n) = n + if p then 1 else 0 := by
  split
  · rfl
  · exact (add_zero n).symm

end Point

variable {o : ByteOrder} {table : List Ifreq}

theorem lev_eq (o : ByteOrder) (level : Int) (i : Ifreq) : i.lev o level = level - i.score o := by
  simp only [Ifreq.lev, Ifreq.score, strstr_isSome, strstr_eq_zero, ite_sub_one, ite_add_one]
  abel

theorem score_le (o : ByteOrder) (i : Ifreq) : i.score o ≤ 5 := by
  have hwlan := point_le_one ("wlan".toList <:+: i.name)
  have hup := point_le_one (i.flags &&& IFF_UP ≠ 0)
  have hbroadcast := point_le_one (i.flags &&& IFF_BROADCAST ≠ 0)
  have h10 := point_le_one ("10.".toList <+: i.addrString o)
  have h192 := point_le_one ("192.168.".toList <+: i.addrString o)
  have hloopback := point_nonneg (i.flags &&& IFF_LOOPBACK ≠ 0)
  rw [Ifreq.score]
  linarith only [hwlan, hup, hbroadcast, h10, h192, hloopback]

theorem score_ge (o : ByteOrder) (i : Ifreq) : -1 ≤ i.score o := by
  have hwlan := point_nonneg ("wlan".toList <:+: i.name)
  have hup := point_nonneg (i.flags &&& IFF_UP ≠ 0)
  have hbroadcast := point_nonneg (i.flags &&& IFF_BROADCAST ≠ 0)
  have h10 := point_nonneg ("10.".toList <+: i.addrString o)
  have h192 := point_nonneg ("192.168.".toList <+: i.addrString o)
  have hloopback := point_le_one (i.flags &&& IFF_LOOPBACK ≠ 0)
  rw [Ifreq.score]
  linarith only [hwlan, hup, hbroadcast, h10, h192, hloopback]

/-! ## The search -/

/-- One pass looks for an interface with the score `level`. -/
theorem scan_eq (o : ByteOrder) (level : Int) (table : List Ifreq) :
    scan o level table = (table.find? (Ifreq.score o · = level)).map (Ifreq.addrString o) := by
  induction table with
  | nil => rfl
  | cons i table ih =>
    rw [scan, lev_eq, List.find?_cons]
    by_cases h : i.score o = level
    · rw [if_pos (by omega), decide_eq_true h, Option.map_some]
    · rw [if_neg (by omega), decide_eq_false h, ih]

theorem guessIfaceAt_eq (h : table.length ≤ MAX_DEV) (o : ByteOrder) (level : Int) :
    guessIfaceAt o table level = (table.find? (Ifreq.score o · = level)).map (Ifreq.addrString o) := by
  rw [guessIfaceAt, List.take_of_length_le h, scan_eq]

/-- From a level above it the search goes down to the best score. -/
theorem guessLoop_best (hlen : table.length ≤ MAX_DEV) {i : Ifreq} (hi : FirstBest (Ifreq.score o) table i) (k : Nat) :
    guessLoop o table (k + 1) (i.score o + k) = some (i.addrString o) := by
  induction k with
  | zero => simp only [guessLoop, guessIfaceAt_eq hlen, Nat.cast_zero, add_zero, hi.find?, Option.map_some]
  | succ k ih =>
    rw [guessLoop, guessIfaceAt_eq hlen, hi.find?_eq_none (by omega), Option.map_none]
    have hlevel : i.score o + (k + 1 : Nat) - 1 = i.score o + k := by omega
    simp only [hlevel, ih]

theorem guessIface_best (hlen : table.length ≤ MAX_DEV) {i : Ifreq} (hi : FirstBest (Ifreq.score o) table i) :
    guessIface o table ((5 - i.score o).toNat + 1) = some (i.addrString o) := by
  have hle := score_le o i
  have hlevel : (5 : Int) = i.score o + (5 - i.score o).toNat := by omega
  have h := guessLoop_best hlen hi (5 - i.score o).toNat
  rwa [← hlevel] at h

/-- Without an interface no level is the right one. -/
theorem guessLoop_nil (o : ByteOrder) (fuel : Nat) : ∀ lvl, guessLoop o [] fuel lvl = none := by
  induction fuel with
  | zero => exact fun _ => rfl
  | succ fuel ih => exact fun lvl => ih (lvl - 1)

/-- **Of an interface table that is not empty the first of the best interfaces is found, in seven passes at most, and of
an empty one none, ever.** -/
theorem guess_iface_best (o : ByteOrder) (table : List Ifreq) (hlen : table.length ≤ MAX_DEV) :
    ((∃ fuel addr, guessIface o table fuel = some addr ∧
        (table ≠ [] → ∃ i, FirstBest (Ifreq.score o) table i ∧ addr = i.addrString o)) ↔ table ≠ []) ∧
      (table ≠ [] → ∃ fuel ≤ 7, ∃ i, FirstBest (Ifreq.score o) table i ∧ guessIface o table fuel = some (i.addrString o)) := by
  have hfound : table ≠ [] →
      ∃ fuel ≤ 7, ∃ i, FirstBest (Ifreq.score o) table i ∧ guessIface o table fuel = some (i.addrString o) := by
    intro hne
    obtain ⟨i, hi⟩ : ∃ i, FirstBest (Ifreq.score o) table i := FirstBest.exists_of_ne_nil hne
    have hge := score_ge o i
    exact ⟨(5 - i.score o).toNat + 1, by omega, i, hi, guessIface_best hlen hi⟩
  refine ⟨⟨?_, fun hne => ?_⟩, hfound⟩
  · rintro ⟨fuel, addr, haddr, -⟩ rfl
    rw [guessIface, guessLoop_nil] at haddr
    cases haddr
  · obtain ⟨fuel, -, i, hi, haddr⟩ := hfound hne
    exact ⟨fuel, _, haddr, fun _ => ⟨i, hi, rfl⟩⟩

/-- The loopback device and a `wlan` device that is up, on a host with the least significant byte first. -/
def twoIfaces : List Ifreq :=
  [⟨"lo".toList, IFF_UP ||| IFF_LOOPBACK, 0x0100007f⟩, ⟨"wlan0".toList, IFF_UP ||| IFF_BROADCAST, 0x0700a8c0⟩]

theorem guess_iface_best_two : (∃ fuel addr, guessIface .little twoIfaces fuel = some addr) ∧
    ∃ fuel ≤ 7, ∃ i, FirstBest (Ifreq.score .little) twoIfaces i ∧
      guessIface .little twoIfaces fuel = some (i.addrString .little) :=
  have h := guess_iface_best .little twoIfaces (by decide)
  have hne : twoIfaces ≠ [] := by decide
  let ⟨fuel, addr, haddr, _⟩ := h.1.2 hne
  ⟨⟨fuel, addr, haddr⟩, h.2 hne⟩

example : guessIface .little twoIfaces 2 = some "192.168.0.7".toList := by decide

/-- Without an interface the search goes on for ever. -/
theorem no_interface_searches :
    ¬∀ (o : ByteOrder) (table : List Ifreq), table.length ≤ MAX_DEV → ∃ fuel addr, guessIface o table fuel = some addr := by
  intro hall
  obtain ⟨fuel, addr, haddr⟩ := hall .little [] (Nat.zero_le _)
  rw [guessIface, guessLoop_nil] at haddr
  cases haddr

end Posix
