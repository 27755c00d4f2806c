import Bixd.Lib.Except

open List

-- Numbers as digits, the most significant one first, and the conversion between radixes in a buffer.
namespace Radix

variable {l : List Nat}

def value (b : Nat) (l : List Nat) : Nat :=
  Nat.ofDigits b l.reverse

-- The digits of a number, without leading zeros.
def digits (b n : Nat) : List Nat :=
  (Nat.digits b n).reverse

-- Multiplies the number in the buffer and adds to it. The carry of the first digit is returned too.
def mulAdd (b m c : Nat) (s : List Nat) : List Nat × Nat :=
  s.foldr (fun d (l, carry) => ((carry + m * d) % b :: l, (carry + m * d) / b)) ([], c)

def append (b m : Nat) (s : List Nat) (c : Nat) : Except String (List Nat) :=
  let (l, carry) := mulAdd b m c s
  if carry ≠ 0 then .error "carry == 0" else .ok l

-- Converts a number in a buffer of `size` digits. Leading zeros are kept.
def convert (b m size : Nat) (l : List Nat) : Except String (List Nat) := do
  let zeroes := (l.takeWhile (· = 0)).length
  let s ← (l.dropWhile (· = 0)).foldlM (append b m) (List.replicate size 0)
  return List.replicate zeroes 0 ++ s.dropWhile (· = 0)

def converted (b m : Nat) (l : List Nat) : List Nat :=
  List.replicate (l.takeWhile (· = 0)).length 0 ++ digits b (value m l)

theorem value_cons : value b (d :: l) = d * b ^ l.length + value b l := by
  simp [value, Nat.ofDigits_append]
  ring

theorem value_lt (h : ∀ d ∈ l, d < b) (hb : 1 < b) : value b l < b ^ l.length := by
  simpa [value] using Nat.ofDigits_lt_base_pow_length hb (l := l.reverse) (by simpa using h)

theorem value_digits : value b (digits b n) = n := by
  rw [value, digits, reverse_reverse, Nat.ofDigits_digits]

theorem lt_of_mem_digits (hb : 1 < b) : ∀ d ∈ digits b n, d < b := by
  intro d hd
  exact Nat.digits_lt_base hb (mem_reverse.mp hd)

theorem digits_value (hb : 1 < b) (h : ∀ d ∈ l, d < b) :
    digits b (value b l) = l.dropWhile (· = 0) := by
  induction l
  case nil => simp [digits, value]
  case cons d l hi =>
    by_cases hd : d = 0
    case pos =>
      have hv : value b (d :: l) = value b l := by simp [value_cons, hd]
      rw [hv, hi fun e he => h e (.tail _ he), dropWhile_cons_of_pos (by simpa using hd)]
    case neg =>
      have he := Nat.digits_ofDigits b hb (d :: l).reverse (fun e he => h e (mem_reverse.mp he))
        (by simpa using hd)
      rw [digits, value, he, reverse_reverse, dropWhile_cons_of_neg (by simpa using hd)]

theorem mulAdd_cons : mulAdd b m c (d :: s) =
    (((mulAdd b m c s).snd + m * d) % b :: (mulAdd b m c s).fst,
      ((mulAdd b m c s).snd + m * d) / b) :=
  rfl

theorem mulAdd_spec (hb : 0 < b) : (mulAdd b m c s).fst.length = s.length ∧
    (∀ d ∈ (mulAdd b m c s).fst, d < b) ∧
    value b (mulAdd b m c s).fst + (mulAdd b m c s).snd * b ^ s.length = m * value b s + c := by
  induction s
  case nil => simp [mulAdd, value]
  case cons d s hi =>
    have ⟨hl, hd, hv⟩ := hi
    rw [mulAdd_cons]
    refine ⟨by simp [hl], by simpa [Nat.mod_lt _ hb] using hd, ?_⟩
    generalize mulAdd b m c s = r at hl hv
    have he := Nat.mod_add_div (r.snd + m * d) b
    calc value b ((r.snd + m * d) % b :: r.fst) + (r.snd + m * d) / b * b ^ (d :: s).length
        = ((r.snd + m * d) % b + b * ((r.snd + m * d) / b)) * b ^ s.length + value b r.fst := by
          rw [value_cons, hl, length_cons, pow_succ]; ring
      _ = m * d * b ^ s.length + (value b r.fst + r.snd * b ^ s.length) := by rw [he]; ring
      _ = m * value b (d :: s) + c := by rw [hv, value_cons]; ring

theorem append_spec (hb : 0 < b) (h : m * value b s + c < b ^ s.length) :
    ∃ s', append b m s c = .ok s' ∧ s'.length = s.length ∧ (∀ d ∈ s', d < b) ∧
      value b s' = m * value b s + c := by
  have ⟨hl, hd, hv⟩ := mulAdd_spec (m := m) (c := c) (s := s) hb
  have hc : (mulAdd b m c s).snd = 0 := by
    by_contra hc
    have hle := Nat.le_mul_of_pos_left (b ^ s.length) (Nat.pos_of_ne_zero hc)
    omega
  rw [hc, Nat.zero_mul, Nat.add_zero] at hv
  exact ⟨_, by simp [append, hc], hl, hd, hv⟩

theorem foldlM_append (hb : 0 < b) (hm : 0 < m) (hs : ∀ d ∈ s, d < b)
    (h : value b s * m ^ l.length + value m l < b ^ s.length) :
    ∃ s', l.foldlM (append b m) s = .ok s' ∧ (∀ d ∈ s', d < b) ∧
      value b s' = value b s * m ^ l.length + value m l := by
  induction l generalizing s
  case nil => exact ⟨s, rfl, hs, by simp [value]⟩
  case cons c l hi =>
    have he : value b s * m ^ (c :: l).length + value m (c :: l) =
        (m * value b s + c) * m ^ l.length + value m l := by
      rw [value_cons, length_cons, pow_succ]
      ring
    rw [he] at h ⊢
    have hle := Nat.le_mul_of_pos_right (m * value b s + c) (Nat.pow_pos (n := l.length) hm)
    have ⟨s₁, ha, hl, hd, hv⟩ := append_spec (m := m) (c := c) (s := s) hb (by omega)
    rw [← hv, ← hl] at h
    have ⟨s', hf, hd', hv'⟩ := hi hd h
    exact ⟨s', by rw [foldlM_cons, ha, Except.ok_bind, hf], hd', hv ▸ hv'⟩

theorem value_zeros : value b (replicate z 0 ++ l) = value b l := by
  simp [value, Nat.ofDigits_append, Nat.ofDigits_replicate_zero]

theorem zeros_append : replicate (l.takeWhile (· = 0)).length 0 ++ l.dropWhile (· = 0) = l := by
  have hz : l.takeWhile (· = 0) = replicate _ 0 := eq_replicate_of_mem fun d hd => by
    simpa using mem_takeWhile_imp hd
  rw [← hz, takeWhile_append_dropWhile]

theorem value_dropWhile : value b (l.dropWhile (· = 0)) = value b l := by
  conv_rhs => rw [← zeros_append (l := l), value_zeros]

theorem convert_eq (hb : 1 < b) (hm : 1 < m) (hd : ∀ d ∈ l, d < m)
    (h : m ^ (l.dropWhile (· = 0)).length ≤ b ^ size) : convert b m size l = .ok (converted b m l) := by
  have hz : value b (replicate size 0) = 0 := by simp [value, Nat.ofDigits_replicate_zero]
  have hlt := value_lt (l := l.dropWhile (· = 0)) (fun d hm => hd d ((dropWhile_suffix _).mem hm)) hm
  have ⟨s, hf, hd, hv⟩ := foldlM_append (b := b) (m := m) (l := l.dropWhile (· = 0))
    (s := replicate size 0) (by omega) (by omega) (by simp; omega) (by simp [hz]; omega)
  rw [hz, Nat.zero_mul, Nat.zero_add, value_dropWhile] at hv
  rw [convert, hf, Except.ok_bind, ← digits_value hb hd, hv]
  rfl

theorem takeWhile_digits (hb : 1 < b) : (digits b n).takeWhile (· = 0) = [] := by
  have hd := digits_value hb (lt_of_mem_digits (n := n) hb)
  rw [value_digits] at hd
  have ha := takeWhile_append_dropWhile (p := (· = 0)) (l := digits b n)
  rw [← hd] at ha
  simpa using ha

theorem converted_converted (hb : 1 < b) (hm : 1 < m) (hd : ∀ d ∈ l, d < m) :
    converted m b (converted b m l) = l := by
  have hz : ((converted b m l).takeWhile (· = 0)).length = (l.takeWhile (· = 0)).length := by
    rw [converted, takeWhile_append_of_pos (by simp), takeWhile_digits hb]
    simp
  rw [converted, hz, converted, value_zeros, value_digits, digits_value hm hd, zeros_append]

theorem lt_of_mem_converted (hb : 1 < b) : ∀ d ∈ converted b m l, d < b := by
  intro d hd
  obtain hd | hd := mem_append.mp hd
  case inl => exact (eq_of_mem_replicate hd).trans_lt (by omega)
  case inr => exact lt_of_mem_digits hb d hd

end Radix
