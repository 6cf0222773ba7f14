import Awds.Lib.BigEndian

/-!
# Fixed-point numbers as bytes: `gea/include/gea/Time.h`

| here | there |
| --- | --- |
| `FixNum`              | `FixNum` (:16), the base of `AbsTime` and `Duration` |
| `FixNum.toArray`      | `toArray` (:63) into the memory `buf` |
| `FixNum.fromArray`    | `fromArray` (:81); the value before it is overwritten |

Shifts are taken modulo 2⁶⁴. Both functions compute with numbers and bytes only, the order of the bytes of a
`long long` in memory does not enter.
-/

namespace Gea

/-- `FixNum` (`Time.h:16`). -/
structure FixNum where
  v : Int64
deriving DecidableEq

namespace FixNum

/-- `sizeof(StoreType)` (:27). -/
abbrev size : Nat := 8

/-- The loop of `toArray` (:67) with `i` bytes to go: `buf` points behind them. -/
def toArrayFrom : Nat → UInt64 → Vector UInt8 size → Vector UInt8 size
  | 0, _, buf => buf
  | i + 1, temp, buf => toArrayFrom i (temp >>> 8) (buf.setIfInBounds i temp.toUInt8)

def toArray (t : FixNum) (buf : Vector UInt8 size) : Vector UInt8 size := toArrayFrom size t.v.toUInt64 buf

/-- `v <<= 8; v |= buf[i];` (:85). -/
def shiftIn (v : Int64) (b : UInt8) : Int64 := v <<< 8 ||| b.toUInt64.toInt64

def fromArray (buf : Vector UInt8 size) : FixNum := ⟨buf.toList.foldl shiftIn 0⟩

/-! ## The loops -/

/-- The last bytes are those of `temp`, the others are left to the next rounds. -/
theorem toList_toArrayFrom : ∀ (n : Nat) (temp : UInt64) (buf : Vector UInt8 size), n ≤ size →
    (toArrayFrom n temp buf).toList = BigEndian.bytes n temp.toNat ++ buf.toList.drop n
  | 0, _, _, _ => rfl
  | n + 1, temp, buf, hn => by
    have hlt : n < buf.toList.length := by rw [Vector.length_toList]; exact hn
    have hshift : (temp >>> 8).toNat = temp.toNat / 256 := by
      rw [UInt64.toNat_shiftRight]
      exact Nat.shiftRight_eq_div_pow _ 8
    have hset : (buf.setIfInBounds n temp.toUInt8).toList.drop n =
        UInt8.ofNat temp.toNat :: buf.toList.drop (n + 1) := by
      rw [Vector.toList_setIfInBounds, List.drop_eq_getElem_cons (by rwa [List.length_set]), List.getElem_set_self,
        List.drop_set_of_lt (Nat.lt_succ_self n)]
      rfl
    rw [toArrayFrom, toList_toArrayFrom n _ _ (Nat.le_of_succ_le hn), hshift, hset, BigEndian.bytes, List.append_assoc]
    rfl

theorem toList_toArray (t : FixNum) (buf : Vector UInt8 size) :
    (toArray t buf).toList = BigEndian.bytes size t.v.toUInt64.toNat := by
  have hdrop : buf.toList.drop size = [] := by
    rw [List.drop_eq_nil_iff, Vector.length_toList]
  rw [toArray, toList_toArrayFrom size _ _ (Nat.le_refl _), hdrop, List.append_nil]

theorem toNat_shiftIn (v : Int64) (b : UInt8) :
    (shiftIn v b).toUInt64.toNat = (256 * v.toUInt64.toNat + b.toNat) % 2 ^ 64 := by
  have heq : (shiftIn v b).toUInt64 = v.toUInt64 <<< 8 ||| b.toUInt64 := rfl
  have hb : b.toNat < 2 ^ 8 := b.toNat_lt
  have hmod : b.toNat % 2 ^ 64 = b.toNat := Nat.mod_eq_of_lt (Nat.lt_trans hb (by decide))
  have hor := Nat.shiftLeft_add_eq_or_of_lt hb v.toUInt64.toNat
  rw [heq, UInt64.toNat_or, UInt64.toNat_shiftLeft, UInt8.toNat_toUInt64, ← hmod, ← Nat.or_mod_two_pow]
  have h8 : (8 : UInt64).toNat % 64 = 8 := rfl
  rw [h8, ← hor, Nat.shiftLeft_eq, Nat.mul_comm, hmod]

theorem toNat_fromArray (buf : Vector UInt8 size) :
    (fromArray buf).v.toUInt64.toNat = BigEndian.value buf.toList := by
  have hfold : ∀ bs : List UInt8, (bs.foldl shiftIn 0).toUInt64.toNat = BigEndian.value bs % 2 ^ 64 := by
    intro bs
    induction bs using List.reverseRecOn with
    | nil => rfl
    | append_singleton bs b ih =>
      rw [List.foldl_append, List.foldl_cons, List.foldl_nil, toNat_shiftIn, ih, BigEndian.value_concat]
      omega
  have hlt : BigEndian.value buf.toList < 2 ^ 64 := by
    have h := BigEndian.value_lt buf.toList
    rwa [Vector.length_toList] at h
  rw [fromArray, hfold, Nat.mod_eq_of_lt hlt]

/-! ## The round trips -/

theorem ext_toNat {s t : FixNum} (h : s.v.toUInt64.toNat = t.v.toUInt64.toNat) : s = t := by
  obtain ⟨v⟩ := s
  obtain ⟨w⟩ := t
  have hv : v.toUInt64 = w.toUInt64 := UInt64.toNat_inj.1 h
  have hi := congrArg UInt64.toInt64 hv
  rw [Int64.toInt64_toUInt64, Int64.toInt64_toUInt64] at hi
  rw [hi]

/-- **Writing and reading restore every value and every array, and what is written is the value in two's
complement, the most significant byte first.** -/
theorem toArray_fromArray :
    (∀ t buf, fromArray (toArray t buf) = t) ∧ (∀ b buf, toArray (fromArray b) buf = b) ∧
      ∀ t buf, (toArray t buf).toList = BigEndian.bytes 8 (t.v.toInt % 2 ^ 64).toNat := by
  refine ⟨fun t buf => ?_, fun b buf => ?_, fun t buf => ?_⟩
  · apply ext_toNat
    rw [toNat_fromArray, toList_toArray, BigEndian.value_bytes]
    exact Nat.mod_eq_of_lt t.v.toUInt64.toNat_lt
  · apply Vector.toList_inj.1
    rw [toList_toArray, toNat_fromArray, BigEndian.bytes_value Vector.length_toList]
  · have htwos : t.v.toInt % 2 ^ 64 = t.v.toUInt64.toNat := by
      have hbmod : t.v.toInt = Int.bmod t.v.toUInt64.toNat (2 ^ 64) := BitVec.toInt_eq_toNat_bmod t.v.toBitVec
      have hlt := t.v.toUInt64.toNat_lt
      have hemod : Int.bmod t.v.toUInt64.toNat (2 ^ 64) % (2 ^ 64 : Nat) = t.v.toUInt64.toNat % (2 ^ 64 : Nat) :=
        Int.bmod_emod
      rw [hbmod]
      omega
    rw [toList_toArray, htwos, Int.toNat_natCast]

end FixNum

end Gea
