import Bixd.Lib.Flags
import Bixd.Tx.SetAccount
import Bixd.Tx.Theorems.Transactor

-- What a change of settings leaves behind.

open ApplyView UInt32 SLE

namespace SetAccount

theorem toggle_and {set : Bool} (h : flag &&& f = 0)
    (h' : ~~~flag &&& f = f) : doApply.toggle set clear flag x y &&& f = y &&& f := by
  unfold doApply.toggle
  split <;> split <;> simp only [and_not_and_flag h', or_and_flag h]

theorem setOrClear_and {set : Bool} (h : flag &&& f = 0)
    (h' : ~~~flag &&& f = f) : doApply.setOrClear set clear flag x &&& f = x &&& f := by
  unfold doApply.setOrClear
  split
  case isTrue => exact or_and_flag h
  split
  case isTrue => exact and_not_and_flag h'
  case isFalse => rfl

-- Flags that can be set and cleared without conditions do not matter for `f`.
def Apart (f : UInt32) : Prop :=
  ∀ flag ∈ [lsfRequireAuth, lsfRequireDestTag, lsfDisallowBIXRP, lsfDefaultBixd, lsfDepositAuth],
    flag &&& f = 0 ∧ ~~~flag &&& f = f

instance (f : UInt32) : Decidable (Apart f) :=
  List.decidableBAll _ _

-- The flags are the same as far as they matter.
def Agree (x y : UInt32) : Prop :=
  ∀ f, Apart f → x &&& f = y &&& f

section

variable {tx : STTx}

theorem assign_fields (h : g ≠ f) : (doApply.assign tx s f unset value).fields g = s.fields g := by
  unfold doApply.assign
  split
  case isFalse => rfl
  split
  case isTrue => exact fields_makeFieldAbsent_of_ne h
  case isFalse => exact fields_set_of_ne h

theorem assign_key :
    (doApply.assign tx s f unset value).key = s.key ∧
      (doApply.assign tx s f unset value).type = s.type := by
  unfold doApply.assign
  split
  case isFalse => exact ⟨rfl, rfl⟩
  case isTrue => split <;> exact ⟨rfl, rfl⟩

theorem fields_key (tx : STTx) (s : SLE) :
    (doApply.fields tx s).key = s.key ∧ (doApply.fields tx s).type = s.type := by
  unfold doApply.fields
  simp only [assign_key]
  split <;> split <;> exact ⟨rfl, rfl⟩

theorem fields_fields (tx : STTx) (s : SLE)
    (h : g ∉ [sfAccountTxnID, sfEmailHash, sfWalletLocator, sfMessageKey, sfDomain,
      sfTransferRate, sfTickSize]) :
    (doApply.fields tx s).fields g = s.fields g := by
  simp only [List.mem_cons, List.not_mem_nil, or_false, not_or] at h
  obtain ⟨h₁, h₂, h₃, h₄, h₅, h₆, h₇⟩ := h
  unfold doApply.fields
  simp only [assign_fields h₂, assign_fields h₃, assign_fields h₄, assign_fields h₅,
    assign_fields h₆, assign_fields h₇]
  split <;> split <;> simp only [fields_makeFieldAbsent_of_ne h₁, fields_set_of_ne h₁]

end

section

variable {x y z f : UInt32}

theorem set_and {c : Prop} [Decidable c] (h : x &&& f = 0) :
    (if c then y ||| x else y) &&& f = y &&& f := by
  split
  case isTrue => exact or_and_flag h
  case isFalse => rfl

variable [Ripesha] {tx : STTx}

theorem freeze_and (hn : lsfNoFreeze &&& f = 0) (hg : lsfGlobalFreeze &&& f = 0)
    (hg' : ~~~lsfGlobalFreeze &&& f = f) (h : doApply.freeze tx x y = .ok z) :
    z &&& f = y &&& f := by
  unfold doApply.freeze at h
  dsimp only at h
  split at h
  case isTrue => cases h
  generalize hy : (if tx.getFieldU32 sfSetFlag = asfGlobalFreeze then
    (if tx.getFieldU32 sfSetFlag = asfNoFreeze then y ||| lsfNoFreeze else y) ||| lsfGlobalFreeze
    else if tx.getFieldU32 sfSetFlag = asfNoFreeze then y ||| lsfNoFreeze else y) = y' at h
  have hy' : y' &&& f = y &&& f := by rw [← hy, set_and hg, set_and hn]
  split at h
  case isTrue => cases h; rw [and_not_and_flag hg', hy']
  case isFalse => cases h; exact hy'

end

section

variable [Digest] [Ripesha] {w : ApplyView} {tx : STTx}
variable {x y z f : UInt32}

theorem disableMaster_spares {α : Type} (look : SLE → Option α) (hv : w.Over B)
    (h : doApply.disableMaster tx w s x y = (.ok z, v)) : Spares look B w v := by
  unfold doApply.disableMaster at h
  split at h
  case isTrue =>
    split at h
    case isTrue => cases h
    split at h
    case isTrue =>
      split at h
      case h_1 => cases h
      case h_2 hpeek => cases h; exact peek_spares look hv hpeek
    case isFalse => cases h; exact .refl hv
  case isFalse => split at h <;> (cases h; exact .refl hv)

theorem flags_eq_ok (h : doApply.flags tx w s = (.ok z, v)) :
    ∃ x y x' z', Agree x s.getFlags ∧ doApply.disableMaster tx w s s.getFlags x = (.ok y, v) ∧
      Agree x' y ∧ doApply.freeze tx s.getFlags x' = .ok z' ∧ Agree z z' := by
  unfold doApply.flags at h
  dsimp only at h
  split at h
  case h_1 => cases h
  case h_2 y w' hdisable =>
    split at h
    case h_1 => cases h
    case h_2 z' hfreeze =>
      have hview : w' = v := by split at h <;> (cases h; rfl)
      rw [hview] at hdisable
      refine ⟨_, y, _, z', fun f hf => ?_, hdisable, fun f hf => ?_, hfreeze, fun f hf => ?_⟩
      · have ⟨h₁, h₁'⟩ := hf lsfRequireAuth (by decide)
        have ⟨h₂, h₂'⟩ := hf lsfRequireDestTag (by decide)
        have ⟨h₃, h₃'⟩ := hf lsfDisallowBIXRP (by decide)
        rw [toggle_and h₃ h₃', toggle_and h₂ h₂', toggle_and h₁ h₁']
      · have ⟨h₁, h₁'⟩ := hf lsfDefaultBixd (by decide)
        exact setOrClear_and h₁ h₁'
      · have ⟨h₁, h₁'⟩ := hf lsfDepositAuth (by decide)
        split at h
        case isTrue => cases h; exact setOrClear_and h₁ h₁'
        case isFalse => cases h; rfl

theorem flags_error (h : doApply.flags tx w s = (.error ter, v)) : ter ≠ tesSUCCESS := by
  unfold doApply.flags at h
  dsimp only at h
  split at h
  case h_1 hdisable =>
    cases h
    unfold doApply.disableMaster at hdisable
    split at hdisable
    case isTrue =>
      split at hdisable
      case isTrue => cases hdisable; decide
      split at hdisable
      case isTrue =>
        split at hdisable
        case h_1 => cases hdisable; decide
        case h_2 => cases hdisable
      case isFalse => cases hdisable
    case isFalse => split at hdisable <;> cases hdisable
  case h_2 =>
    split at h
    case h_1 hfreeze =>
      cases h
      unfold doApply.freeze at hfreeze
      dsimp only at hfreeze
      split at hfreeze
      case isTrue => cases hfreeze; decide
      case isFalse => split_ifs at hfreeze
    case h_2 => split at h <;> cases h

theorem doApply_eq_ok (h : doApply ctx w = .ok (tesSUCCESS, v)) :
    ∃ p w₁ z w₂, ∃ p' : SLEPtr,
      w.peek (.account (ctx.tx.getAccountID sfAccount)) = (some p, w₁) ∧
      doApply.flags ctx.tx w₁ p.sle = (.ok z, w₂) ∧ w₂.update p' = .ok v ∧
      (p'.key = p.key) ∧ (p'.sle.type = p.sle.type) ∧ (p'.sle.getFlags = z) ∧
      (p'.sle.isFieldPresent sfRegularKey = p.sle.isFieldPresent sfRegularKey) := by
  unfold doApply at h
  split at h
  case h_1 => cases h
  case h_2 p w₁ hpeek =>
    split at h
    case h_1 ter w₂ hflags =>
      cases h
      exact absurd rfl (flags_error hflags)
    case h_2 z w₂ hflags =>
      have ⟨v', hu, h⟩ := Except.bind_eq_ok.mp h
      cases h
      have ⟨hk, ht⟩ := fields_key ctx.tx p.sle
      have hreg := fields_fields ctx.tx p.sle (g := sfRegularKey) (by decide)
      have hflag := fields_fields ctx.tx p.sle (g := sfFlags) (by decide)
      refine ⟨p, w₁, z, w₂, _, hpeek, hflags, hu, ?_, ?_, ?_, ?_⟩
      · change key (if _ then _ else _) = _
        split <;> exact hk
      · dsimp only
        split <;> exact ht
      · dsimp only
        unfold getFlags
        split
        case isTrue => exact getFieldU32_set_self
        case isFalse heq =>
          rw [getFieldU32, hflag]
          exact not_not.mp heq
      · dsimp only
        unfold isFieldPresent
        split
        case isTrue => rw [fields_set_of_ne (by decide), hreg]
        case isFalse => rw [hreg]

end

end SetAccount
