import Mathlib

/-!
# C strings

A buffer is a list of bytes, and its string are those before the first NUL. `none` is an access behind the end of
a buffer.
-/

namespace CString

variable {s t buf : List UInt8}

/-- The string in the buffer. -/
def str (buf : List UInt8) : List UInt8 := buf.takeWhile (· != 0)

def strlen (buf : List UInt8) : Option Nat := if 0 ∈ buf then some (str buf).length else none

/-- Where the first byte of `accept` is in the string. -/
def strpbrk (buf accept : List UInt8) : Option (Option Nat) :=
  if 0 ∈ buf then some ((str buf).findIdx? (· ∈ accept)) else none

def memcpy (dst : List UInt8) (pos : Nat) (src : List UInt8) : Option (List UInt8) :=
  if pos + src.length ≤ dst.length then some (dst.take pos ++ src ++ dst.drop (pos + src.length)) else none

def strcpy (dst src : List UInt8) : Option (List UInt8) :=
  if 0 ∈ src then memcpy dst 0 (str src ++ [0]) else none

/-- `n` bytes, of which nothing is known. -/
def malloc (junk : UInt8) (n : Nat) : List UInt8 := List.replicate n junk

def realloc (junk : UInt8) (buf : Option (List UInt8)) (n : Nat) : List UInt8 :=
  (buf.getD []).take n ++ malloc junk (n - (buf.getD []).length)

/-- `strtok` from the saved position `pos` on: where the token is, the position it saves, and the buffer with the
NUL behind the token. -/
def strtok (isDelim : UInt8 → Bool) (buf : List UInt8) (pos : Nat) : Option (Nat × Nat × List UInt8) :=
  let s := str (buf.drop pos)
  let token := pos + (s.takeWhile isDelim).length
  let word := (s.dropWhile isDelim).takeWhile fun c => !isDelim c
  let stop := token + word.length
  if word = [] then none
  else if stop = pos + s.length then some (token, stop, buf)
  else some (token, stop + 1, buf.set stop 0)

theorem str_append (h : 0 ∉ s) (t : List UInt8) : str (s ++ 0 :: t) = s := by
  rw [str, List.takeWhile_append_of_pos, List.takeWhile_cons_of_neg, List.append_nil]
  · simp
  · intro c hc
    rw [bne_iff_ne]
    rintro rfl
    exact h hc

theorem zero_mem (s t : List UInt8) : 0 ∈ s ++ 0 :: t := List.mem_append_right s List.mem_cons_self

theorem strlen_append (h : 0 ∉ s) (t : List UInt8) : strlen (s ++ 0 :: t) = some s.length := by
  rw [strlen, if_pos (zero_mem s t), str_append h]

theorem strpbrk_append {accept : List UInt8} (h : 0 ∉ s) (t : List UInt8) :
    strpbrk (s ++ 0 :: t) accept = some (s.findIdx? (· ∈ accept)) := by
  rw [strpbrk, if_pos (zero_mem s t), str_append h]

theorem memcpy_append (old : List UInt8) (h : old.length = t.length) (u : List UInt8) :
    memcpy (s ++ old ++ u) s.length t = some (s ++ t ++ u) := by
  have htake : (s ++ old ++ u).take s.length = s := by rw [List.append_assoc, List.take_left]
  have hdrop : (s ++ old ++ u).drop (s.length + t.length) = u := by rw [← h, ← List.length_append, List.drop_left]
  rw [memcpy, if_pos, htake, hdrop]
  simp only [List.length_append]
  omega

theorem strcpy_malloc (h : 0 ∉ s) (junk : UInt8) (t : List UInt8) :
    strcpy (malloc junk (s.length + 1)) (s ++ 0 :: t) = some (s ++ [0]) := by
  rw [strcpy, if_pos (zero_mem s t), str_append h]
  have hcopy := memcpy_append (s := []) (t := s ++ [0]) (malloc junk (s.length + 1)) (by simp [malloc]) []
  simpa using hcopy

/-- `t` and a NUL, copied behind the first bytes of a buffer that they fill. -/
theorem memcpy_string (htake : buf.take s.length = s) (hlen : buf.length = s.length + t.length + 1) :
    ∃ copied, memcpy buf s.length t = some copied ∧ memcpy copied (s.length + t.length) [0] = some (s ++ t ++ [0]) := by
  have hlast : (buf.drop (s.length + t.length)).length = 1 := by rw [List.length_drop]; omega
  refine ⟨s ++ t ++ buf.drop (s.length + t.length), ?_, ?_⟩
  · rw [memcpy, if_pos (by omega), htake]
  · have hcopy := memcpy_append (s := s ++ t) (t := [0]) _ hlast []
    rwa [List.append_nil, List.append_nil, List.length_append] at hcopy

theorem length_realloc {old : Option (List UInt8)} {n : Nat} (h : (old.getD []).length ≤ n) (junk : UInt8) :
    (realloc junk old n).length = n := by
  rw [realloc, malloc, List.length_append, List.length_take, List.length_replicate]
  omega

theorem take_realloc {old : Option (List UInt8)} {n : Nat} (h : s <+: old.getD []) (hn : (old.getD []).length ≤ n)
    (junk : UInt8) : (realloc junk old n).take s.length = s := by
  obtain ⟨u, hu⟩ := h
  rw [realloc, List.take_of_length_le hn, ← hu, List.append_assoc, List.take_left]

/-- A token is behind the position, and the position moves on. -/
theorem strtok_lt {isDelim : UInt8 → Bool} {pos token next : Nat} {buf' : List UInt8}
    (h : strtok isDelim buf pos = some (token, next, buf')) : pos < next ∧ pos < buf.length ∧ buf'.length = buf.length := by
  simp only [strtok] at h
  split at h
  · cases h
  · rename_i hword
    have hpos : pos < buf.length := by
      by_contra hge
      rw [List.drop_eq_nil_of_le (not_lt.1 hge)] at hword
      exact hword rfl
    have hlen := List.length_pos_iff.2 hword
    split at h
    · cases h
      refine ⟨?_, hpos, rfl⟩
      omega
    · cases h
      refine ⟨?_, hpos, List.length_set⟩
      omega

/-- The string from a position within it on. -/
theorem str_drop {k : Nat} (h : k ≤ (str buf).length) : str (buf.drop k) = (str buf).drop k := by
  induction buf generalizing k with
  | nil => rw [List.drop_nil, str, List.takeWhile_nil, List.drop_nil]
  | cons c buf ih =>
    cases k with
    | zero => rfl
    | succ k =>
      by_cases hc : (c != 0) = true
      · have hstr : str (c :: buf) = c :: str buf := List.takeWhile_cons_of_pos hc
        rw [hstr, List.length_cons] at h
        rw [hstr, List.drop_succ_cons, List.drop_succ_cons]
        exact ih (Nat.le_of_succ_le_succ h)
      · have hstr : str (c :: buf) = [] := List.takeWhile_cons_of_neg hc
        rw [hstr] at h
        exact absurd h (Nat.not_succ_le_zero k)

/-- `strtok` stays within the string: what is left of it ends where it ended, and nothing behind is written to. -/
theorem strtok_frame {isDelim : UInt8 → Bool} {pos token next : Nat} {buf' : List UInt8}
    (h : strtok isDelim buf pos = some (token, next, buf')) :
    next + (str (buf'.drop next)).length = pos + (str (buf.drop pos)).length ∧
      buf'.drop (pos + (str (buf.drop pos)).length) = buf.drop (pos + (str (buf.drop pos)).length) := by
  simp only [strtok] at h
  generalize hs : str (buf.drop pos) = s at h ⊢
  have hlen : (s.takeWhile isDelim).length + ((s.dropWhile isDelim).takeWhile fun c => !isDelim c).length ≤ s.length := by
    have hsplit := congrArg List.length (List.takeWhile_append_dropWhile (p := isDelim) (l := s))
    have hword := (List.takeWhile_prefix (fun c => !isDelim c) (l := s.dropWhile isDelim)).length_le
    rw [List.length_append] at hsplit
    omega
  generalize (s.takeWhile isDelim).length = a at h hlen
  generalize ((s.dropWhile isDelim).takeWhile fun c => !isDelim c) = word at h hlen
  have hleft : ∀ q, pos ≤ q → q ≤ pos + s.length → (str (buf.drop q)).length = pos + s.length - q := by
    intro q hq hle
    obtain ⟨k, rfl⟩ := Nat.exists_eq_add_of_le hq
    rw [← List.drop_drop, str_drop (hs ▸ Nat.le_of_add_le_add_left hle), hs, List.length_drop, Nat.add_sub_add_left]
  split at h
  · cases h
  · split at h
    · cases h
      refine ⟨?_, rfl⟩
      rw [hleft _ (by omega) (by omega)]
      omega
    · cases h
      constructor
      · rw [List.drop_set_of_lt (Nat.lt_succ_self _), hleft _ (by omega) (by omega)]
        omega
      · exact List.drop_set_of_lt (by omega)

/-- A token is not empty. -/
theorem strtok_ne_zero {isDelim : UInt8 → Bool} {pos token next : Nat} {buf' : List UInt8}
    (h : strtok isDelim buf pos = some (token, next, buf')) : buf'[token]? ≠ some 0 := by
  simp only [strtok] at h
  generalize hs : str (buf.drop pos) = s at h
  split at h
  · cases h
  · rename_i hword
    obtain ⟨c, w, hcw⟩ := List.exists_cons_of_ne_nil hword
    rw [hcw] at h
    have hdrop : ∃ u, s = s.takeWhile isDelim ++ c :: u := by
      obtain ⟨v, hv⟩ := List.takeWhile_prefix (fun c => !isDelim c) (l := s.dropWhile isDelim)
      rw [hcw] at hv
      exact ⟨w ++ v, by rw [← List.cons_append, hv, List.takeWhile_append_dropWhile]⟩
    obtain ⟨u, hu⟩ := hdrop
    generalize s.takeWhile isDelim = blanks at hu h
    have hne : c ≠ 0 := by
      have hmem : c ∈ str (buf.drop pos) := by
        rw [hs, hu]
        exact List.mem_append_right _ List.mem_cons_self
      simpa using List.mem_takeWhile_imp hmem
    have hat : buf[pos + blanks.length]? = some c := by
      obtain ⟨v, hv⟩ := List.takeWhile_prefix (fun c : UInt8 => c != 0) (l := buf.drop pos)
      rw [← List.getElem?_drop, ← hv, ← str, hs, hu, List.append_assoc, List.getElem?_append_right le_rfl]
      simp
    split at h
    · cases h
      rw [hat]
      simpa using hne
    · cases h
      rw [List.getElem?_set_ne (by simp), hat]
      simpa using hne

/-! ## The first word of a string -/

section First

variable {isDelim : UInt8 → Bool} {pre blanks word : List UInt8}

theorem drop_string (h : 0 ∉ s) (pre t : List UInt8) : str ((pre ++ (s ++ 0 :: t)).drop pre.length) = s := by
  rw [List.drop_left, str_append h]

theorem takeWhile_blanks (hb : ∀ c ∈ blanks, isDelim c = true) (hw : ∀ c ∈ word, isDelim c = false) (hne : word ≠ [])
    (t : List UInt8) :
    (blanks ++ (word ++ t)).takeWhile isDelim = blanks ∧ (blanks ++ (word ++ t)).dropWhile isDelim = word ++ t := by
  obtain ⟨c, w, rfl⟩ := List.exists_cons_of_ne_nil hne
  have hc : ¬isDelim c = true := by simp [hw c List.mem_cons_self]
  rw [List.takeWhile_append_of_pos hb, List.dropWhile_append_of_pos hb, List.cons_append, List.takeWhile_cons_of_neg hc,
    List.dropWhile_cons_of_neg hc, List.append_nil]
  exact ⟨rfl, rfl⟩

theorem strtok_none (hb : ∀ c ∈ blanks, isDelim c = true) (hnul : 0 ∉ blanks) (pre t : List UInt8) :
    strtok isDelim (pre ++ (blanks ++ 0 :: t)) pre.length = none := by
  have hrest : blanks.dropWhile isDelim = [] := List.dropWhile_eq_nil_iff.2 hb
  simp only [strtok, drop_string hnul, hrest, List.takeWhile_nil, if_true]

/-- The last word: the end of the string ends it. -/
theorem strtok_last (hb : ∀ c ∈ blanks, isDelim c = true) (hw : ∀ c ∈ word, isDelim c = false) (hne : word ≠ [])
    (hnul : 0 ∉ blanks ++ word) (pre t : List UInt8) :
    strtok isDelim (pre ++ (blanks ++ word ++ 0 :: t)) pre.length =
      some (pre.length + blanks.length, pre.length + (blanks ++ word).length, pre ++ (blanks ++ word ++ 0 :: t)) := by
  have hsplit := takeWhile_blanks hb hw hne []
  rw [List.append_nil] at hsplit
  have hword : word.takeWhile (fun c => !isDelim c) = word := List.takeWhile_eq_self_iff.2 fun c hc => by simp [hw c hc]
  simp only [strtok, drop_string hnul, hsplit.1, hsplit.2, hword, if_neg hne, List.length_append, Nat.add_assoc, if_true]

/-- A delimiter ends the word, and becomes its NUL. -/
theorem strtok_cut {d : UInt8} (hb : ∀ c ∈ blanks, isDelim c = true) (hw : ∀ c ∈ word, isDelim c = false) (hne : word ≠ [])
    (hd : isDelim d = true) (hnul : 0 ∉ blanks ++ word ++ d :: s) (pre t : List UInt8) :
    strtok isDelim (pre ++ (blanks ++ word ++ d :: s ++ 0 :: t)) pre.length =
      some (pre.length + blanks.length, (pre ++ (blanks ++ word ++ [0])).length,
        pre ++ (blanks ++ word ++ [0]) ++ (s ++ 0 :: t)) := by
  have hsplit := takeWhile_blanks hb hw hne (d :: s)
  rw [← List.append_assoc] at hsplit
  have hword : (word ++ d :: s).takeWhile (fun c => !isDelim c) = word := by
    rw [List.takeWhile_append_of_pos fun c hc => by simp [hw c hc], List.takeWhile_cons_of_neg (by simp [hd]),
      List.append_nil]
  have hlen : pre.length + blanks.length + word.length ≠ pre.length + (blanks ++ word ++ d :: s).length := by
    simp only [List.length_append, List.length_cons]
    omega
  simp only [strtok, drop_string hnul, hsplit.1, hsplit.2, hword, if_neg hne, if_neg hlen]
  have hbuf : pre ++ (blanks ++ word ++ d :: s ++ 0 :: t) = (pre ++ blanks ++ word) ++ d :: (s ++ 0 :: t) := by simp
  have hpos : pre.length + blanks.length + word.length = (pre ++ blanks ++ word).length := by simp [Nat.add_assoc]
  rw [hbuf, hpos, List.set_append_right _ _ le_rfl, Nat.sub_self, List.set_cons_zero]
  simp [Nat.add_assoc]

end First

end CString
