import Bixd.Protocol.Theorems.Fields
import Bixd.Protocol.Theorems.Serializer

open SerializedTypeID Except STObject STArray STPathSet

namespace SerialIter

variable {α β : Type}

-- A read leaves no more than there was.
def Shrinks (r : SerialIter α) : Prop :=
  ∀ s x rest, r s = .ok (x, rest) → rest.length ≤ s.length

section

variable {r r' : SerialIter α} {p : Blob → Prop} [DecidablePred p]

theorem Shrinks.bind (hr : r.Shrinks)
    (hf : ∀ a, Shrinks fun s => f (a, s)) : Shrinks fun s => r s >>= f := by
  intro s x rest h
  have ⟨⟨a, s₁⟩, ha, h⟩ := bind_eq_ok.mp h
  exact (hf a _ _ _ h).trans (hr _ _ _ ha)

theorem Shrinks.lift {f : α → SerialIter β} (hf : ∀ a, (f a).Shrinks) :
    Shrinks fun s => x >>= fun a => f a s := by
  intro s y rest h
  have ⟨a, _, h⟩ := bind_eq_ok.mp h
  exact hf a _ _ _ h

theorem Shrinks.ok : Shrinks fun s => .ok (x, s) := by
  intro s y rest h
  cases h
  exact le_rfl

theorem Shrinks.error : Shrinks fun _ => (.error e : Except String (α × Blob)) :=
  nofun

theorem Shrinks.ite (h : r.Shrinks) (h' : r'.Shrinks) : Shrinks fun s => if p s then r s else r' s := by
  intro s x rest he
  dsimp only at he
  split at he
  case isTrue => exact h _ _ _ he
  case isFalse => exact h' _ _ _ he

end

theorem get_length (h : get n what s = .ok (b, rest)) : rest.length + n = s.length := by
  have ⟨hl, h⟩ := ite_error_eq_ok.mp h
  cases h
  rw [List.length_drop]
  omega

theorem get_shrinks : (get n what).Shrinks := by
  intro s b rest h
  have hl := get_length h
  omega

theorem get8_length (h : get8 s = .ok (b, rest)) : rest.length < s.length := by
  have ⟨⟨_, _⟩, ha, h⟩ := bind_eq_ok.mp h
  cases h
  have hl := get_length ha
  omega

theorem get8_shrinks : get8.Shrinks :=
  get_shrinks.bind fun _ => .ok

theorem get16_shrinks : get16.Shrinks :=
  get_shrinks.bind fun _ => .ok

theorem get32_shrinks : get32.Shrinks :=
  get_shrinks.bind fun _ => .ok

theorem get64_shrinks : get64.Shrinks :=
  get_shrinks.bind fun _ => .ok

theorem getBitString_shrinks : (getBitString n).Shrinks :=
  get_shrinks.bind fun _ => .ok

theorem uncommon_shrinks : Shrinks (getFieldID.uncommon what half) :=
  .ite (get8_shrinks.bind fun _ => .ite .error .ok) .ok

theorem getFieldID_length (h : getFieldID s = .ok (x, rest)) : rest.length < s.length := by
  have ⟨⟨b, s₁⟩, hb, h⟩ := bind_eq_ok.mp h
  have ⟨⟨_, s₂⟩, ht, h⟩ := bind_eq_ok.mp h
  have ⟨⟨_, s₃⟩, hn, h⟩ := bind_eq_ok.mp h
  cases h
  exact Nat.lt_of_le_of_lt ((uncommon_shrinks _ _ _ hn).trans (uncommon_shrinks _ _ _ ht))
    (get8_length hb)

theorem getFieldID_shrinks : getFieldID.Shrinks :=
  fun _ _ _ h => (getFieldID_length h).le

theorem getVLDataLength_shrinks : getVLDataLength.Shrinks := by
  refine get8_shrinks.bind fun b1 => .lift (x := Serializer.decodeLengthLength b1) fun n => ?_
  split
  case h_1 => exact .lift fun _ => .ok
  case h_2 => exact get8_shrinks.bind fun _ => .lift fun _ => .ok
  case h_3 => exact get8_shrinks.bind fun _ => get8_shrinks.bind fun _ => .lift fun _ => .ok

theorem getVL_shrinks : getVL.Shrinks :=
  getVLDataLength_shrinks.bind fun _ => get_shrinks

end SerialIter

open SerialIter

theorem STAmount.ofSerialIter_shrinks : STAmount.ofSerialIter.Shrinks :=
  get64_shrinks.bind fun _ => .ite (.ite .ok (.ite .error .ok)) (getBitString_shrinks.bind fun _ =>
    .ite .error (getBitString_shrinks.bind fun _ => .ite .error (.lift fun _ => .ok)))

namespace STPathSet

theorem optional_shrinks : Shrinks (STPathElement.ofSerialIter.optional present) :=
  .ite getBitString_shrinks .ok

theorem element_shrinks : (STPathElement.ofSerialIter iType).Shrinks :=
  optional_shrinks.bind fun _ => optional_shrinks.bind fun _ => optional_shrinks.bind fun _ => .ok

theorem loop_shrinks : (ofSerialIter.loop n path).Shrinks := by
  induction n generalizing path
  case zero => exact .error
  case succ n hi =>
    exact get8_shrinks.bind fun _ => .ite (.ite .error (.ite .ok (hi.bind fun _ => .ok)))
      (.ite .error (element_shrinks.bind fun _ => hi))

-- A round of the loop reads a byte at least, so that there are never too few of them.
theorem loop_fuel {s : Blob} (hn : s.length < n) (hm : s.length < m) :
    ofSerialIter.loop n path s = ofSerialIter.loop m path s := by
  induction n generalizing m path s
  case zero => exact absurd hn (Nat.not_lt_zero _)
  case succ n hi =>
    obtain _ | m := m
    · omega
    apply Except.bind_congr
    rintro ⟨iType, s₁⟩ h₁
    have hl := get8_length h₁
    simp only
    have hnil : ofSerialIter.loop n [] s₁ = ofSerialIter.loop m [] s₁ := hi (by omega) (by omega)
    rw [hnil]
    split
    case isTrue => rfl
    split
    case isTrue => rfl
    apply Except.bind_congr
    rintro ⟨e, s₂⟩ h₂
    have hl' := element_shrinks _ _ _ h₂
    exact hi (Nat.lt_of_le_of_lt hl' (by omega)) (Nat.lt_of_le_of_lt hl' (by omega))

end STPathSet

theorem STVector256.ofSerialIter_shrinks : STVector256.ofSerialIter.Shrinks :=
  getVL_shrinks.bind fun _ => .ok

theorem STAccount.ofSerialIter_shrinks : STAccount.ofSerialIter.Shrinks :=
  getVL_shrinks.bind fun _ => .ite .ok (.ite .error .ok)

theorem STPathSet.ofSerialIter_shrinks : ofSerialIter.Shrinks :=
  fun _ _ _ h => loop_shrinks _ _ _ h

structure ReadsShrink (n : Nat) : Prop where
  object : ∀ d, (setFields n d).Shrinks
  var    : ∀ f d, (STVar.ofSerialIter n f d).Shrinks
  array  : ∀ d, (STArray.ofSerialIter n d).Shrinks

namespace ReadsShrink

theorem setFields_succ (hi : ReadsShrink n) : (setFields (n + 1) d).Shrinks := by
  have he : setFields (n + 1) d = fun s => _ := funext fun _ => setFields.eq_2 ..
  rw [he]
  refine .ite .ok (getFieldID_shrinks.bind fun x => .ite .ok (.ite .error ?_))
  cases SField.getField x.1 x.2
  case none => exact .error
  case some => exact (hi.var _ _).bind fun _ => .lift fun _ => (hi.object d).bind fun _ => .ok

theorem var_succ {f : SField} (hi : ReadsShrink n) :
    (STVar.ofSerialIter (n + 1) f d).Shrinks := by
  have he : STVar.ofSerialIter (n + 1) f d = fun s => _ := funext fun _ => STVar.ofSerialIter.eq_2 ..
  rw [he]
  refine .ite .error ?_
  cases f.fieldType
  case STI_UINT8 => exact get8_shrinks.bind fun _ => .ok
  case STI_UINT16 => exact get16_shrinks.bind fun _ => .ok
  case STI_UINT32 => exact get32_shrinks.bind fun _ => .ok
  case STI_UINT64 => exact get64_shrinks.bind fun _ => .ok
  case STI_AMOUNT => exact STAmount.ofSerialIter_shrinks.bind fun _ => .ok
  case STI_VECTOR256 => exact STVector256.ofSerialIter_shrinks.bind fun _ => .ok
  case STI_VL => exact getVL_shrinks.bind fun _ => .ok
  case STI_ACCOUNT => exact STAccount.ofSerialIter_shrinks.bind fun _ => .ok
  case STI_PATHSET => exact ofSerialIter_shrinks.bind fun _ => .ok
  case STI_OBJECT => exact (hi.object _).bind fun _ => .lift fun _ => .ok
  case STI_ARRAY => exact (hi.array d).bind fun _ => .ok
  all_goals exact getBitString_shrinks.bind fun _ => .ok

theorem array_succ (hi : ReadsShrink n) : (ofSerialIter (n + 1) d).Shrinks := by
  have he : ofSerialIter (n + 1) d = fun s => _ := funext fun _ =>
    ofSerialIter.eq_2 ..
  rw [he]
  refine .ite .ok (getFieldID_shrinks.bind fun x => .ite .ok (.ite .error ?_))
  cases SField.getField x.1 x.2
  case none => exact .error
  case some =>
    exact .ite .error (.ite .error ((hi.object _).bind fun _ => .lift fun _ => .lift fun _ =>
      (hi.array d).bind fun _ => .ok))

end ReadsShrink

theorem readsShrink (n : Nat) : ReadsShrink n := by
  induction n
  case zero =>
    constructor
    case object => intro d s x rest h; rw [setFields] at h; cases h
    case var => intro f d s x rest h; rw [STVar.ofSerialIter] at h; cases h
    case array => intro d s x rest h; rw [STArray.ofSerialIter] at h; cases h
  case succ n hi => exact ⟨fun _ => hi.setFields_succ, fun _ _ => hi.var_succ, fun _ => hi.array_succ⟩

-- With this much fuel, more of it changes nothing: the readers never run out.
structure Enough (n : Nat) : Prop where
  object : ∀ {k d s}, 2 * s.length < n → setFields n d s = setFields (k + n) d s
  var    : ∀ {k f d s}, 2 * s.length + 1 < n →
    STVar.ofSerialIter n f d s = STVar.ofSerialIter (k + n) f d s
  array  : ∀ {k d s}, 2 * s.length < n →
    STArray.ofSerialIter n d s = STArray.ofSerialIter (k + n) d s

namespace Enough

variable {s : Blob}

theorem setFields_succ (hi : Enough n) (hs : 2 * s.length < n + 1) :
    setFields (n + 1) d s = setFields (k + n + 1) d s := by
  rw [setFields, setFields]
  split
  case isTrue => rfl
  apply Except.bind_congr
  rintro ⟨⟨type, field⟩, s₁⟩ h₁
  have hl := getFieldID_length h₁
  simp only
  split
  case isTrue => rfl
  split
  case isTrue => rfl
  split
  case h_1 => rfl
  rw [← hi.var (by omega)]
  apply Except.bind_congr
  rintro ⟨v, s₂⟩ h₂
  have hl₂ := (readsShrink n).var _ _ _ _ _ h₂
  apply Except.bind_congr
  intro v' _
  simp only
  rw [← hi.object (by omega)]

theorem var_succ (hi : Enough n) (hs : 2 * s.length + 1 < n + 1) :
    STVar.ofSerialIter (n + 1) f d s = STVar.ofSerialIter (k + n + 1) f d s := by
  rw [STVar.ofSerialIter, STVar.ofSerialIter, hi.object (by omega), hi.array (by omega)]

theorem array_succ (hi : Enough n) (hs : 2 * s.length < n + 1) :
    STArray.ofSerialIter (n + 1) d s = STArray.ofSerialIter (k + n + 1) d s := by
  rw [STArray.ofSerialIter, STArray.ofSerialIter]
  split
  case isTrue => rfl
  apply Except.bind_congr
  rintro ⟨⟨type, field⟩, s₁⟩ h₁
  have hl := getFieldID_length h₁
  simp only
  split
  case isTrue => rfl
  split
  case isTrue => rfl
  split
  case h_1 => rfl
  split
  case isTrue => rfl
  split
  case isTrue => rfl
  rw [← hi.object (by omega)]
  apply Except.bind_congr
  rintro ⟨o, s₂⟩ h₂
  have hl₂ := (readsShrink n).object _ _ _ _ h₂
  apply Except.bind_congr
  intro o' _
  apply Except.bind_congr
  intro o'' _
  simp only
  rw [← hi.array (by omega)]

end Enough

theorem enough (n : Nat) : Enough n := by
  induction n
  case zero =>
    constructor
    case object => intro k d s hs; omega
    case var => intro k f d s hs; omega
    case array => intro k d s hs; omega
  case succ n hi => exact ⟨hi.setFields_succ, hi.var_succ, hi.array_succ⟩

-- The bound that the constructor of a whole object starts with is never what stops it.
theorem STObject.ofSerialIter_fuel {s : Blob} (hn : 2 * s.length < n) :
    ofSerialIter s =
      (do let (o, s) ← setFields n 0 s; return (← o.checkDuplicates, s)) := by
  obtain ⟨k, rfl⟩ := Nat.exists_eq_add_of_le' hn
  unfold ofSerialIter
  rw [(enough _).object (k := k) (Nat.lt_succ_self _)]
