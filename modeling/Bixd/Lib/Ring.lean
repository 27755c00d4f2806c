import Mathlib

-- Positions that are linked to a ring in their order, from an anchor which is the least of them.

namespace Ring

variable {α : Type} [LinearOrder α] {o n m x p q last : α} {P Q : α → Prop}

-- The position after `n`, which is the anchor if there is none above.
def Next (o : α) (P : α → Prop) (n m : α) : Prop :=
  (P m ∧ n < m ∧ ∀ x, P x → n < x → m ≤ x) ∨ (m = o ∧ ∀ x, P x → x ≤ n)

-- The position before `n`, which is the greatest one for the anchor.
def Prev (o : α) (P : α → Prop) (n m : α) : Prop :=
  P m ∧ ((n ≠ o ∧ m < n ∧ ∀ x, P x → x < n → x ≤ m) ∨ (n = o ∧ ∀ x, P x → x ≤ m))

theorem Next.congr (h : Next o P n m) (hq : ∀ x, P x ↔ Q x) : Next o Q n m := by
  have hpq : P = Q := funext fun x => propext (hq x)
  exact hpq ▸ h

theorem Prev.congr (h : Prev o P n m) (hq : ∀ x, P x ↔ Q x) : Prev o Q n m := by
  have hpq : P = Q := funext fun x => propext (hq x)
  exact hpq ▸ h

theorem Next.mem (h : Next o P n m) (ho : P o) : P m := by
  obtain h | h := h
  case inl => exact h.left
  case inr => exact h.left ▸ ho

theorem Next.ne (h : Next o P n m) (hn : n ≠ o) : m ≠ n := by
  obtain ⟨_, hlt, _⟩ | ⟨rfl, _⟩ := h
  case inl => exact hlt.ne'
  case inr => exact hn.symm

section Alone

-- There is nothing but the anchor. Otherwise it is linked to others.

theorem Next.eq_anchor_iff (h : Next o P o m) (hleast : ∀ y, P y → o ≤ y) :
    m = o ↔ ∀ y, P y → y = o := by
  obtain ⟨hm, hlt, _⟩ | ⟨rfl, hmax⟩ := h
  case inl => exact ⟨fun he => absurd he hlt.ne', fun hall => hall m hm⟩
  case inr => exact iff_of_true rfl fun y hy => le_antisymm (hmax y hy) (hleast y hy)

theorem Prev.eq_anchor_iff (h : Prev o P o m) (hleast : ∀ y, P y → o ≤ y) :
    m = o ↔ ∀ y, P y → y = o := by
  obtain ⟨hm, ⟨hne, _⟩ | ⟨_, hmax⟩⟩ := h
  case inl => exact absurd rfl hne
  case inr =>
    refine ⟨fun he y hy => le_antisymm ?_ (hleast y hy), fun hall => hall m hm⟩
    exact he ▸ hmax y hy

theorem next_alone (hp : ∀ x, P x ↔ x = o) : Next o P o o :=
  .inr ⟨rfl, fun x hx => ((hp x).mp hx).le⟩

theorem prev_alone (hp : ∀ x, P x ↔ x = o) : Prev o P o o :=
  ⟨(hp o).mpr rfl, .inr ⟨rfl, fun x hx => ((hp x).mp hx).le⟩⟩

end Alone

section Add

-- A position `x` is added above all others, the greatest of which is `last`.

variable (hle : ∀ y, P y → y ≤ last) (hx : last < x) (hq : ∀ y, Q y ↔ P y ∨ y = x)

include hle hx hq

theorem Next.add (h : Next o P n m) (hlast : P last) (hn : n ≠ last) (hp : P n) :
    Next o Q n m := by
  have hlt : n < last := lt_of_le_of_ne (hle n hp) hn
  obtain ⟨hm, hnm, hmin⟩ | ⟨_, hmax⟩ := h
  case inl =>
    refine .inl ⟨(hq m).mpr (.inl hm), hnm, fun y hy hny => ?_⟩
    obtain hy | rfl := (hq y).mp hy
    case inl => exact hmin y hy hny
    case inr => exact ((hle m hm).trans_lt hx).le
  case inr => exact absurd (hmax last hlast) (not_le.mpr hlt)

theorem next_last : Next o Q last x := by
  refine .inl ⟨(hq x).mpr (.inr rfl), hx, fun y hy hly => ?_⟩
  obtain hy | rfl := (hq y).mp hy
  case inl => exact absurd (hle y hy) (not_le.mpr hly)
  case inr => exact le_rfl

theorem le_added (hy : Q y) : y ≤ x := by
  obtain hy | rfl := (hq y).mp hy
  case inl => exact ((hle y hy).trans_lt hx).le
  case inr => exact le_rfl

theorem next_added : Next o Q x o :=
  .inr ⟨rfl, fun _ hy => le_added hle hx hq hy⟩

theorem Prev.add (h : Prev o P n m) (hn : n ≠ o) (hp : P n) : Prev o Q n m := by
  obtain ⟨hm, ⟨_, hmn, hmax⟩ | ⟨ho, _⟩⟩ := h
  case inl =>
    refine ⟨(hq m).mpr (.inl hm), .inl ⟨hn, hmn, fun y hy hyn => ?_⟩⟩
    obtain hy | rfl := (hq y).mp hy
    case inl => exact hmax y hy hyn
    case inr => exact absurd ((hle n hp).trans_lt hx) hyn.not_gt
  case inr => exact absurd ho hn

theorem prev_anchor : Prev o Q o x :=
  ⟨(hq x).mpr (.inr rfl), .inr ⟨rfl, fun _ hy => le_added hle hx hq hy⟩⟩

theorem prev_added (hlast : P last) (ho : o ≤ last) : Prev o Q x last := by
  refine ⟨(hq last).mpr (.inl hlast), .inl ⟨(ho.trans_lt hx).ne', hx, fun y hy hyx => ?_⟩⟩
  obtain hy | rfl := (hq y).mp hy
  case inl => exact hle y hy
  case inr => exact absurd hyx (lt_irrefl _)

end Add

section Remove

-- The position `x`, which is not the anchor, is removed. It was between `p` and `q`.

variable (ho : P o) (hleast : ∀ y, P y → o ≤ y) (hx : P x) (hxo : x ≠ o)
variable (hp : Prev o P x p) (hn : Next o P x q) (hq : ∀ y, Q y ↔ P y ∧ y ≠ x)

include hq in

theorem Next.remove (h : Next o P n m) (hm : m ≠ x) : Next o Q n m := by
  obtain ⟨hpm, hnm, hmin⟩ | ⟨rfl, hmax⟩ := h
  case inl => exact .inl ⟨(hq m).mpr ⟨hpm, hm⟩, hnm, fun y hy => hmin y ((hq y).mp hy).left⟩
  case inr => exact .inr ⟨rfl, fun y hy => hmax y ((hq y).mp hy).left⟩

include hq in

theorem Prev.remove (h : Prev o P n m) (hm : m ≠ x) : Prev o Q n m := by
  obtain ⟨hpm, ⟨hno, hmn, hmax⟩ | ⟨rfl, hmax⟩⟩ := h
  case inl => exact ⟨(hq m).mpr ⟨hpm, hm⟩, .inl ⟨hno, hmn, fun y hy => hmax y ((hq y).mp hy).left⟩⟩
  case inr => exact ⟨(hq m).mpr ⟨hpm, hm⟩, .inr ⟨rfl, fun y hy => hmax y ((hq y).mp hy).left⟩⟩

theorem Prev.lt (hp : Prev o P x p) (hxo : x ≠ o) : p < x := by
  obtain ⟨_, ⟨_, hpx, _⟩ | ⟨h, _⟩⟩ := hp
  case inl => exact hpx
  case inr => exact absurd h hxo

theorem Prev.le_of_lt (hp : Prev o P x p) (hxo : x ≠ o) (hy : P y) (hyx : y < x) : y ≤ p := by
  obtain ⟨_, ⟨_, _, hmax⟩ | ⟨h, _⟩⟩ := hp
  case inl => exact hmax y hy hyx
  case inr => exact absurd h hxo

include hxo hp in

theorem Next.eq_prev (hpn : P n) (h : Next o P n x) : n = p := by
  obtain ⟨_, hnx, hmin⟩ | ⟨h, _⟩ := h
  case inl =>
    refine le_antisymm (hp.le_of_lt hxo hpn hnx) (not_lt.mp fun hlt => ?_)
    exact absurd (hmin p hp.left hlt) (not_le.mpr (hp.lt hxo))
  case inr => exact absurd h hxo

include hn in

theorem Prev.eq_next (hpn : P n) (h : Prev o P n x) : n = q := by
  obtain ⟨_, ⟨_, hxn, hmax⟩ | ⟨rfl, hmax⟩⟩ := h
  case inl =>
    obtain ⟨hpq, hxq, hmin⟩ | ⟨_, hle⟩ := hn
    case inl =>
      refine le_antisymm (not_lt.mp fun hlt => ?_) (hmin n hpn hxn)
      exact absurd (hmax q hpq hlt) (not_le.mpr hxq)
    case inr => exact absurd (hle n hpn) (not_le.mpr hxn)
  case inr =>
    obtain ⟨hpq, hxq, _⟩ | ⟨rfl, _⟩ := hn
    case inl => exact absurd (hmax q hpq) (not_le.mpr hxq)
    case inr => rfl

include hxo hp hn hq in

theorem next_removed : Next o Q p q := by
  have hpx := hp.lt hxo
  obtain ⟨hpq, hxq, hmin⟩ | ⟨rfl, hmax⟩ := hn
  case inl =>
    refine .inl ⟨(hq q).mpr ⟨hpq, hxq.ne'⟩, hpx.trans hxq, fun y hy hpy => ?_⟩
    have ⟨hpy', hyx⟩ := (hq y).mp hy
    obtain hlt | hgt := lt_or_gt_of_ne hyx
    case inl => exact absurd (hp.le_of_lt hxo hpy' hlt) (not_le.mpr hpy)
    case inr => exact hmin y hpy' hgt
  case inr =>
    refine .inr ⟨rfl, fun y hy => ?_⟩
    have ⟨hpy, hyx⟩ := (hq y).mp hy
    exact hp.le_of_lt hxo hpy (lt_of_le_of_ne (hmax y hpy) hyx)

include hleast hx hxo hp hn hq in

theorem prev_removed : Prev o Q q p := by
  have hpx := hp.lt hxo
  have hqp : Q p := (hq p).mpr ⟨hp.left, hpx.ne⟩
  obtain ⟨hpq, hxq, hmin⟩ | ⟨rfl, hmax⟩ := hn
  case inl =>
    refine ⟨hqp, .inl ⟨((hleast x hx).trans_lt hxq).ne', hpx.trans hxq, fun y hy hyq => ?_⟩⟩
    have ⟨hpy, hyx⟩ := (hq y).mp hy
    obtain hlt | hgt := lt_or_gt_of_ne hyx
    case inl => exact hp.le_of_lt hxo hpy hlt
    case inr => exact absurd (hmin y hpy hgt) (not_le.mpr hyq)
  case inr =>
    refine ⟨hqp, .inr ⟨rfl, fun y hy => ?_⟩⟩
    have ⟨hpy, hyx⟩ := (hq y).mp hy
    exact hp.le_of_lt hxo hpy (lt_of_le_of_ne (hmax y hpy) hyx)

end Remove

end Ring
