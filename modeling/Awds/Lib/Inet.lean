import Awds.Lib.BigEndian

/-!
# Byte orders and Internet addresses

A word lies in memory with its most significant byte first or last. In a `sockaddr` the most significant one is first,
whatever the host does: `htonl` and its like are the host's words for that. `inetNtoa` and `inetAddr` go by the bytes
in memory.
-/

namespace Inet

inductive ByteOrder where
  | little | big
deriving DecidableEq

/-- The `n` bytes of a word, as they lie in memory. -/
def memory (o : ByteOrder) (n v : Nat) : List UInt8 :=
  match o with
  | .big => BigEndian.bytes n v
  | .little => (BigEndian.bytes n v).reverse

/-- The word that lies in memory. -/
def word (o : ByteOrder) (bs : List UInt8) : Nat :=
  match o with
  | .big => BigEndian.value bs
  | .little => BigEndian.value bs.reverse

/-- The word that lies in memory with the most significant byte of `v` first. -/
def hton (o : ByteOrder) (n v : Nat) : Nat := word o (memory .big n v)

/-- `htonl`, and `ntohl`, which is the same function. -/
def htonl (o : ByteOrder) (w : UInt32) : UInt32 := .ofNat (hton o 4 w.toNat)

/-- `htons`, and `ntohs`. -/
def htons (o : ByteOrder) (w : UInt16) : UInt16 := .ofNat (hton o 2 w.toNat)

def decimal (n : Nat) : List Char := Nat.toDigits 10 n

/-- `inet_ntoa`: the bytes in memory, with dots between them. -/
def inetNtoa (o : ByteOrder) (w : UInt32) : List Char :=
  ['.'].intercalate ((memory o 4 w.toNat).map fun b => decimal b.toNat)

def digit (base : Nat) (c : Char) : Option Nat :=
  let v :=
    if c.isDigit then c.toNat - '0'.toNat
    else if 'a' ≤ c.toLower ∧ c.toLower ≤ 'f' then c.toLower.toNat - 'a'.toNat + 10
    else base
  if v < base then some v else none

def digits (base : Nat) (cs : List Char) : Option Nat :=
  if cs = [] then none else cs.foldlM (fun v c => (digit base c).map (base * v + ·)) 0

/-- A part of an address: decimal, octal or hexadecimal. -/
def part : List Char → Option Nat
  | '0' :: 'x' :: cs | '0' :: 'X' :: cs => digits 16 cs
  | '0' :: c :: cs => digits 8 (c :: cs)
  | cs => digits 10 cs

/-- The address of one to four parts. The last one is for all the bytes that are left. -/
def join (parts : List Nat) : Option Nat :=
  let front := parts.dropLast
  let last := parts.getLastD 0
  if parts ≠ [] ∧ front.length ≤ 3 ∧ (∀ b ∈ front, b < 256) ∧ last < 256 ^ (4 - front.length) then
    some (front.foldl (fun v b => 256 * v + b) 0 * 256 ^ (4 - front.length) + last)
  else none

/-- `inet_addr`: the word with these bytes in memory, `INADDR_NONE` if the text is not an address. -/
def inetAddr (o : ByteOrder) (cs : List Char) : UInt32 :=
  match ((cs.splitOn '.').mapM part).bind join with
  | some v => htonl o (.ofNat v)
  | none => 0xffffffff

/-! ## Memory -/

variable {o : ByteOrder} {n v : Nat}

@[simp] theorem length_memory (o : ByteOrder) (n v : Nat) : (memory o n v).length = n := by
  cases o with
  | big => exact BigEndian.length_bytes n v
  | little => rw [memory, List.length_reverse, BigEndian.length_bytes]

theorem word_memory (h : v < 256 ^ n) : word o (memory o n v) = v := by
  cases o with
  | big => rw [word, memory, BigEndian.value_bytes, Nat.mod_eq_of_lt h]
  | little => rw [word, memory, List.reverse_reverse, BigEndian.value_bytes, Nat.mod_eq_of_lt h]

theorem word_lt (o : ByteOrder) (bs : List UInt8) : word o bs < 256 ^ bs.length := by
  cases o with
  | big => exact BigEndian.value_lt bs
  | little =>
    have h := BigEndian.value_lt bs.reverse
    rwa [List.length_reverse] at h

/-! ## Between the orders -/

theorem hton_lt (o : ByteOrder) (n v : Nat) : hton o n v < 256 ^ n := by
  have h := word_lt o (memory .big n v)
  rwa [length_memory] at h

theorem hton_big (h : v < 256 ^ n) : hton .big n v = v := word_memory h

theorem hton_little (n v : Nat) : hton .little n v = BigEndian.value (BigEndian.bytes n v).reverse := rfl

theorem bytes_hton_little (n v : Nat) : BigEndian.bytes n (hton .little n v) = (BigEndian.bytes n v).reverse :=
  BigEndian.bytes_value (List.length_reverse.trans (BigEndian.length_bytes n v))

theorem hton_hton (h : v < 256 ^ n) : hton o n (hton o n v) = v := by
  cases o with
  | big => rw [hton_big h, hton_big h]
  | little =>
    rw [hton_little n (hton .little n v), bytes_hton_little, List.reverse_reverse, BigEndian.value_bytes, Nat.mod_eq_of_lt h]

/-- The bytes are the same from either end. -/
def Symmetric (n v : Nat) : Prop := (BigEndian.bytes n v).reverse = BigEndian.bytes n v

instance (n v : Nat) : Decidable (Symmetric n v) := inferInstanceAs (Decidable (_ = _))

/-- Where the order makes no difference. -/
theorem hton_eq_self_iff (h : v < 256 ^ n) : hton o n v = v ↔ o = .big ∨ Symmetric n v := by
  cases o with
  | big => exact iff_of_true (hton_big h) (.inl rfl)
  | little =>
    rw [or_iff_right (by decide), Symmetric]
    constructor
    · intro heq
      rw [← bytes_hton_little, heq]
    · intro hsymm
      rw [hton_little, hsymm, BigEndian.value_bytes, Nat.mod_eq_of_lt h]

section Words

variable {w : UInt32} {p : UInt16}

theorem toNat_htonl (o : ByteOrder) (w : UInt32) : (htonl o w).toNat = hton o 4 w.toNat := by
  rw [htonl, UInt32.toNat_ofNat']
  exact Nat.mod_eq_of_lt (hton_lt o 4 w.toNat)

theorem toNat_htons (o : ByteOrder) (p : UInt16) : (htons o p).toNat = hton o 2 p.toNat := by
  rw [htons, UInt16.toNat_ofNat']
  exact Nat.mod_eq_of_lt (hton_lt o 2 p.toNat)

@[simp] theorem htons_htons (o : ByteOrder) (p : UInt16) : htons o (htons o p) = p := by
  apply UInt16.toNat_inj.1
  rw [toNat_htons, toNat_htons, hton_hton p.toNat_lt]

theorem htonl_eq_self_iff : htonl o w = w ↔ o = .big ∨ Symmetric 4 w.toNat := by
  rw [← UInt32.toNat_inj, toNat_htonl, hton_eq_self_iff w.toNat_lt]

theorem htons_eq_self_iff : htons o p = p ↔ o = .big ∨ Symmetric 2 p.toNat := by
  rw [← UInt16.toNat_inj, toNat_htons, hton_eq_self_iff p.toNat_lt]

end Words

/-! ## Addresses as text -/

theorem decimal_dot (n : Nat) : '.' ∉ decimal n :=
  fun h => absurd (Nat.isDigit_of_mem_toDigits (by decide) (by decide) h) (by decide)

theorem part_decimal (b : UInt8) : part (decimal b.toNat) = some b.toNat := by
  have hall : ∀ n < 256, part (decimal n) = some n := by decide +kernel
  exact hall b.toNat b.toNat_lt

theorem splitOn_inetNtoa (o : ByteOrder) (w : UInt32) :
    (inetNtoa o w).splitOn '.' = (memory o 4 w.toNat).map fun b => decimal b.toNat := by
  refine List.splitOn_intercalate '.' ?_ ?_
  · intro cs hcs
    obtain ⟨b, -, rfl⟩ := List.mem_map.1 hcs
    exact decimal_dot b.toNat
  · apply List.ne_nil_of_length_pos
    simp

theorem mapM_part (bs : List UInt8) : (bs.map fun b => decimal b.toNat).mapM part = some (bs.map UInt8.toNat) := by
  induction bs with
  | nil => rfl
  | cons b bs ih =>
    simp only [List.map_cons, List.mapM_cons, part_decimal, ih, Option.pure_def, Option.bind_eq_bind, Option.bind_some]

/-- Four bytes are an address. -/
theorem join_bytes {bs : List UInt8} (h : bs.length = 4) : join (bs.map UInt8.toNat) = some (BigEndian.value bs) := by
  obtain ⟨a, b, c, d, rfl⟩ := List.length_eq_four.1 h
  have hfront : ∀ n ∈ [a.toNat, b.toNat, c.toNat], n < 256 := by
    simp only [List.mem_cons, List.not_mem_nil, or_false]
    rintro n (rfl | rfl | rfl)
    exacts [a.toNat_lt, b.toNat_lt, c.toNat_lt]
  rw [join, if_pos ⟨List.cons_ne_nil _ _, le_rfl, hfront, d.toNat_lt⟩, BigEndian.value]
  simp [Nat.mul_comm]

/-- `inet_addr` reads what `inet_ntoa` has written. -/
theorem inetAddr_inetNtoa (o : ByteOrder) (w : UInt32) : inetAddr o (inetNtoa o w) = w := by
  have hlen := length_memory o 4 w.toNat
  have hlt := BigEndian.value_lt (memory o 4 w.toNat)
  rw [hlen] at hlt
  rw [inetAddr, splitOn_inetNtoa, mapM_part, Option.bind_some, join_bytes hlen]
  apply UInt32.toNat_inj.1
  rw [toNat_htonl, UInt32.toNat_ofNat_of_lt' hlt, hton, memory, BigEndian.bytes_value hlen, word_memory w.toNat_lt]

theorem inetNtoa_inj {w w' : UInt32} : inetNtoa o w = inetNtoa o w' ↔ w = w' := by
  constructor
  · intro h
    rw [← inetAddr_inetNtoa o w, h, inetAddr_inetNtoa]
  · rintro rfl
    rfl

end Inet
