import Mathlib

/-!
# Numbers as bytes, the most significant first

`bytes n v` are the last `n` bytes of `v`, `value` is the number that bytes stand for.
-/

namespace BigEndian

def value (bs : List UInt8) : Nat := bs.foldl (fun v b => 256 * v + b.toNat) 0

def bytes : Nat → Nat → List UInt8
  | 0, _ => []
  | n + 1, v => bytes n (v / 256) ++ [UInt8.ofNat v]

@[simp] theorem value_nil : value [] = 0 := rfl

theorem value_concat (bs : List UInt8) (b : UInt8) : value (bs ++ [b]) = 256 * value bs + b.toNat := by
  rw [value, List.foldl_append]
  rfl

theorem value_lt (bs : List UInt8) : value bs < 256 ^ bs.length := by
  induction bs using List.reverseRecOn with
  | nil => decide
  | append_singleton bs b ih =>
    have hb := b.toNat_lt
    rw [value_concat, List.length_append, List.length_singleton, pow_succ]
    omega

theorem value_bytes (n v : Nat) : value (bytes n v) = v % 256 ^ n := by
  induction n generalizing v with
  | zero => rw [bytes, value_nil, pow_zero, Nat.mod_one]
  | succ n ih =>
    rw [bytes, value_concat, ih, UInt8.toNat_ofNat', Nat.pow_succ' (n := n) (m := 256), Nat.mod_mul]
    omega

theorem length_bytes (n v : Nat) : (bytes n v).length = n := by
  induction n generalizing v with
  | zero => rfl
  | succ n ih => rw [bytes, List.length_append, List.length_singleton, ih]

theorem bytes_value {n : Nat} {bs : List UInt8} (h : bs.length = n) : bytes n (value bs) = bs := by
  subst h
  induction bs using List.reverseRecOn with
  | nil => rfl
  | append_singleton bs b ih =>
    have hb := b.toNat_lt
    have hdiv : (256 * value bs + b.toNat) / 256 = value bs := by omega
    have hmod : UInt8.ofNat (256 * value bs + b.toNat) = b := by
      apply UInt8.toNat_inj.1
      rw [UInt8.toNat_ofNat']
      omega
    rw [value_concat, List.length_append, List.length_singleton, bytes, hdiv, hmod, ih]

end BigEndian
