import Bixd.Ledger.Directory.Theorems.Add
import Bixd.Ledger.Directory.Theorems.Remove
import Bixd.Ledger.Theorems.Frame

open Except

-- The root of a directory tells which directory it is.

namespace ApplyView

variable {s : SLE} {v : ApplyView}
variable {p node root : SLEPtr}

def Roots (dir : UInt256) (s : SLE) : Prop :=
  s.key = dir → s.fields sfRootIndex = some (.hash256 dir)

theorem Roots.set (h : Roots dir s) (hf : sfRootIndex ≠ f) : Roots dir (s.set f x) :=
  fun hk => (SLE.fields_set_of_ne hf).trans (h hk)

theorem Roots.ite {c : Prop} [Decidable c] (h : Roots dir p.sle) (h' : Roots dir node.sle) :
    Roots dir (if c then p else node).sle := by
  split
  case isTrue => exact h
  case isFalse => exact h'

-- This is so for all entries of the view.
def Rooted (dir : UInt256) (v : ApplyView) : Prop :=
  ∃ B M, v.Shows B M ∧ ∀ n s, M n = some s → Roots dir s

theorem Rooted.peek (h : v.Rooted dir) (hp : v.peek k = (o, v')) :
    v'.Rooted dir ∧ ∀ p, o = some p → Roots dir p.sle := by
  have ⟨B, M, hv, hm⟩ := h
  have ⟨_, hv', he, hs, _⟩ := hv.peek k
  rw [hp] at hv' hs
  subst hv'
  refine ⟨⟨B, M, he.shows, hm⟩, fun p hp => hm k.key p.sle ?_⟩
  subst hp
  exact (Option.filter_eq_some_iff.mp hs.symm).left

theorem Rooted.peekOrError (h : v.Rooted dir) (hp : v.peekOrError k e = .ok (p, v')) :
    v'.Rooted dir ∧ Roots dir p.sle := by
  unfold ApplyView.peekOrError at hp
  split at hp
  case h_1 hpeek =>
    cases hp
    have ⟨hr, hpage⟩ := h.peek hpeek
    exact ⟨hr, hpage _ rfl⟩
  case h_2 => cases hp

theorem roots_update (hm : ∀ n s, M n = some s → Roots dir s) (hy : ∀ s, y = some s → Roots dir s)
    (n' : UInt256) (s : SLE) (hs : Function.update M n y n' = some s) : Roots dir s := by
  rw [Function.update_apply] at hs
  split at hs
  case isTrue => exact hy s hs
  case isFalse => exact hm n' s hs

theorem Rooted.update (h : v.Rooted dir) (hp : Roots dir p.sle) (hu : v.update p = .ok v') :
    v'.Rooted dir := by
  have ⟨B, M, hv, hm⟩ := h
  have ⟨t, ht, _⟩ := bind_eq_ok.mp hu
  have ⟨_, hv', he⟩ := hv.update (ApplyStateTable.holds_of_update ht)
  cases hu.symm.trans hv'
  exact ⟨B, _, he.shows, roots_update hm fun _ hs => Option.some.inj hs ▸ hp⟩

theorem Rooted.erase (h : v.Rooted dir) (he : v.erase p = .ok v') : v'.Rooted dir := by
  have ⟨B, M, hv, hm⟩ := h
  have ⟨t, ht, _⟩ := bind_eq_ok.mp he
  have ⟨_, hv', he'⟩ := hv.erase (ApplyStateTable.holds_of_erase ht)
  cases he.symm.trans hv'
  exact ⟨B, _, he'.shows, roots_update hm nofun⟩

theorem Rooted.erase_if {c : Prop} [Decidable c] (hv : v.Rooted dir)
    (h : (if c then (do return (true, ← v.erase p)) else return (true, v)) =
      (.ok (r, v') : Except String _)) : v'.Rooted dir := by
  split at h
  case isTrue =>
    have ⟨w, he, h⟩ := bind_eq_ok.mp h
    cases h
    exact hv.erase he
  case isFalse => cases h; exact hv

variable [Digest]
namespace dirRemove

theorem emptyRoot_rooted (hv : v.Rooted dir) (hn : Roots dir node.sle)
    (h : emptyRoot v directory node keepRoot = .ok (r, v')) : v'.Rooted dir := by
  have ⟨_, h⟩ := ite_error_eq_ok.mp h
  have ⟨_, h⟩ := ite_error_eq_ok.mp h
  split at h
  case isTrue =>
    have ⟨⟨last, v₁⟩, hlast, h⟩ := bind_eq_ok.mp h
    have ⟨h₁, _⟩ := hv.peekOrError hlast
    dsimp only at h
    split at h
    case isTrue =>
      have ⟨v₂, hu, h⟩ := bind_eq_ok.mp h
      have h₂ := h₁.update ((hn.set (by decide)).set (by decide)) hu
      have ⟨v₃, he, h⟩ := bind_eq_ok.mp h
      have h₃ := h₂.erase he
      split at h
      case isTrue => cases h; exact h₃
      have ⟨v₄, he', h⟩ := bind_eq_ok.mp h
      cases h
      exact h₃.erase he'
    case isFalse => cases h; exact h₁
  case isFalse =>
    split at h
    case isTrue => cases h; exact hv
    case isFalse => exact hv.erase_if h

theorem unlink_rooted (hv : v.Rooted dir)
    (h : unlink v directory prevPage nextPage node = .ok (prev, next, v')) :
    v'.Rooted dir ∧ Roots dir prev.sle ∧ Roots dir next.sle := by
  have ⟨⟨prev₀, v₁⟩, hprev, h⟩ := bind_eq_ok.mp h
  have ⟨h₁, hp⟩ := hv.peekOrError hprev
  have ⟨v₂, hu, h⟩ := bind_eq_ok.mp h
  have h₂ := h₁.update (hp.set (by decide)) hu
  have ⟨⟨next₀, v₃⟩, hnext, h⟩ := bind_eq_ok.mp h
  have ⟨h₃, hx⟩ := h₂.peekOrError hnext
  have ⟨v₄, hu', h⟩ := bind_eq_ok.mp h
  have h₄ := h₃.update (hx.set (by decide)) hu'
  have ⟨v₅, he, h⟩ := bind_eq_ok.mp h
  cases h
  have hp' : Roots dir (prev₀.set sfIndexNext (.uint64 nextPage)).sle := hp.set (by decide)
  have hx' : Roots dir (next₀.set sfIndexPrevious (.uint64 prevPage)).sle := hx.set (by decide)
  exact ⟨h₄.erase he, hx'.ite hp', hx'⟩

theorem emptyPage_rooted (hv : v.Rooted dir)
    (h : emptyPage v directory page node keepRoot = .ok (r, v')) : v'.Rooted dir := by
  have ⟨_, h⟩ := ite_error_eq_ok.mp h
  have ⟨_, h⟩ := ite_error_eq_ok.mp h
  have ⟨⟨prev, next, v₁⟩, hu, h⟩ := bind_eq_ok.mp h
  have ⟨h₁, hp, _⟩ := unlink_rooted hv hu
  dsimp only at h
  split at h
  case isTrue =>
    have ⟨v₂, he, h⟩ := bind_eq_ok.mp h
    have h₂ := h₁.erase he
    have ⟨v₃, hu', h⟩ := bind_eq_ok.mp h
    have h₃ := h₂.update (hp.set (by decide)) hu'
    have ⟨⟨root, v₄⟩, hr, h⟩ := bind_eq_ok.mp h
    have ⟨h₄, hroot⟩ := h₃.peekOrError hr
    have ⟨v₅, hu'', h⟩ := bind_eq_ok.mp h
    exact (h₄.update (hroot.set (by decide)) hu'').erase_if h
  case isFalse => exact h₁.erase_if h

end dirRemove

theorem Rooted.dirRemove (hv : v.Rooted dir)
    (h : v.dirRemove directory page key keepRoot = .ok (r, v')) : v'.Rooted dir := by
  unfold ApplyView.dirRemove at h
  split at h
  case h_1 v₁ hpeek =>
    cases h
    exact (hv.peek hpeek).left
  case h_2 node v₁ hpeek =>
    have ⟨h₁, hpage⟩ := hv.peek hpeek
    have hn (ks : List UInt256) : Roots dir (node.set sfIndexes (.vector256 ks)).sle :=
      (hpage _ rfl).set (by decide)
    dsimp only at h
    split at h
    case isTrue => cases h; exact h₁
    have ⟨v₂, hu, h⟩ := bind_eq_ok.mp h
    have h₂ := h₁.update (hn _) hu
    split at h
    case isTrue => cases h; exact h₂
    split at h
    case isTrue => exact dirRemove.emptyRoot_rooted h₂ (hn _) h
    case isFalse => exact dirRemove.emptyPage_rooted h₂ h

omit [Digest] in

theorem Shows.read_unchecked (h : v.Shows B M) (n : UInt256) :
    v.view.read (.unchecked n) = M n := by
  rw [h.read]
  change (M n).filter _ = M n
  cases M n
  case none => rfl
  case some s => exact (Option.filter_some ..).trans (if_pos Keylet.check_unchecked)

omit [Digest] in

theorem read_item (v : ApplyView) (n : UInt256) : v.view.read (.unchecked n) =
    match v.item n with
    | none => v.base.read (.unchecked n)
    | some (a, p) => if a = .erase then none else some p.sle := by
  change StateTable.read (· = .erase) v.items.items v.base (.unchecked n) = _
  unfold StateTable.read item
  rw [show (Keylet.unchecked n).key = n from rfl]
  cases v.items.items.find? n
  case none => rfl
  case some e => simp [Keylet.check_unchecked]

omit [Digest] in

theorem Rooted.insert (h : v.Rooted dir) (hp : Roots dir p.sle)
    (hi : v.insert p = .ok v') (hv' : v'.Shows B' M') : v'.Rooted dir := by
  have ⟨B, M, hv, hm⟩ := h
  refine ⟨B', M', hv', fun n s hs => ?_⟩
  have ⟨hb, hitem⟩ := insert_eq_ok hi
  rw [← hv'.read_unchecked, read_item] at hs
  by_cases hn : n = p.key
  case pos =>
    subst hn
    rcases hitem with ⟨_, hitem⟩ | ⟨_, _, hitem⟩ <;>
      rw [hitem, Function.update_self] at hs <;> exact Option.some.inj hs ▸ hp
  case neg =>
    have hsame : v'.item n = v.item n := by
      rcases hitem with ⟨_, hitem⟩ | ⟨_, _, hitem⟩ <;> rw [hitem, Function.update_of_ne hn]
    rw [hsame, hb] at hs
    refine hm n s ?_
    rw [← hv.read_unchecked, read_item]
    exact hs

omit [Digest] in

theorem roots_describe (hdesc : Describes describe)
    (hs : s.fields sfRootIndex = some (.hash256 dir)) : Roots dir (describe s) :=
  fun _ => ((hdesc s).right.right sfRootIndex (by decide)).trans hs

omit [Digest] in

theorem Rooted.insertNew (h : v.Rooted dir) (hs : Roots dir s) (ha : v.alloc s = (p, v'))
    (hi : v'.insert p = .ok v'') (hv'' : v''.Shows B' M') : v''.Rooted dir := by
  have ⟨B, M, hv, hm⟩ := h
  have ⟨_, _, ha', he, hp⟩ := hv.alloc s
  cases ha.symm.trans ha'
  exact Rooted.insert ⟨B, M, he.shows, hm⟩ (hp ▸ hs) hi hv''

theorem Rooted.newPage (hv : v.Rooted dir) (hdesc : Describes describe)
    (hr : Roots dir root.sle) (hn : Roots dir node.sle)
    (h : dirAdd.newPage v ⟨.ltDIR_NODE, dir⟩ key describe root node page = .ok (r, v'))
    (hv' : v'.Shows B' M') : v'.Rooted dir := by
  unfold dirAdd.newPage at h
  dsimp only at h
  split at h
  case isTrue => cases h; exact hv
  have hn' : Roots dir (node.set sfIndexNext (.uint64 (page + 1))).sle := hn.set (by decide)
  have ⟨v₁, hu, h⟩ := bind_eq_ok.mp h
  have h₁ := hv.update hn' hu
  have ⟨v₂, hu', h⟩ := bind_eq_ok.mp h
  have h₂ := h₁.update ((hn'.ite hr).set (by decide)) hu'
  have ⟨v₃, hi, h⟩ := bind_eq_ok.mp h
  cases h
  refine h₂.insertNew (roots_describe hdesc ?_) rfl hi hv'
  split
  case isTrue => rw [SLE.fields_set_of_ne (by decide), SLE.fields_set_of_ne (by decide)]; rfl
  case isFalse => rw [SLE.fields_set_of_ne (by decide)]; rfl

theorem Rooted.dirAdd (hv : v.Rooted dir) (hdesc : Describes describe)
    (h : v.dirAdd preserveOrder ⟨.ltDIR_NODE, dir⟩ key describe = .ok (r, v'))
    (hv' : v'.Shows B' M') : v'.Rooted dir := by
  unfold ApplyView.dirAdd at h
  split at h
  case h_1 v₁ hpeek =>
    have ⟨v₂, hi, h⟩ := bind_eq_ok.mp h
    cases h
    refine (hv.peek hpeek).left.insertNew (Roots.set ?_ (by decide)) rfl hi hv'
    exact roots_describe hdesc SLE.fields_set_self
  case h_2 root v₁ hpeek =>
    have ⟨h₁, hpage⟩ := hv.peek hpeek
    have hr := hpage _ rfl
    have ⟨⟨node, v₂⟩, hlast, h⟩ := bind_eq_ok.mp h
    have ⟨h₂, hn⟩ : v₂.Rooted dir ∧ Roots dir node.sle := by
      unfold dirAdd.lastPage at hlast
      split at hlast
      case isTrue => exact h₁.peekOrError hlast
      case isFalse => cases hlast; exact ⟨h₁, hr⟩
    dsimp only at h
    split at h
    case isTrue =>
      have ⟨indexes, _, h⟩ := bind_eq_ok.mp h
      have ⟨v₃, hu, h⟩ := bind_eq_ok.mp h
      cases h
      exact h₂.update (hn.set (by decide)) hu
    case isFalse => exact h₂.newPage hdesc hr hn h hv'

end ApplyView
