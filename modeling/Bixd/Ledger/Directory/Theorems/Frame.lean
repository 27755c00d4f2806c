import Bixd.Ledger.Directory
import Bixd.Ledger.Theorems.Frame

open Except

-- Directories only touch their own pages, even if they are broken.

namespace ApplyView

variable {α : Type} {look : SLE → Option α} {B : UInt256 → Option SLE} {v v' v'' : ApplyView}
variable {p prev next node root : SLEPtr}

-- A page that the view has.
structure HasPage (look : SLE → Option α) (v : ApplyView) (p : SLEPtr) : Prop where
  type : p.sle.type = .ltDIR_NODE
  dull : v.Dull look p.key

theorem HasPage.set (h : v.HasPage look p) : v.HasPage look (p.set f x) :=
  ⟨h.type, h.dull⟩

theorem HasPage.dulls (h : v.HasPage look p) (hd : Dulls look B v v') : v'.HasPage look p :=
  ⟨h.type, hd.dull _ h.dull⟩

theorem HasPage.ite {c : Prop} [Decidable c] (h : v.HasPage look p) (h' : v.HasPage look node) :
    v.HasPage look (if c then p else node) := by
  split
  case isTrue => exact h
  case isFalse => exact h'

section

variable (hd : ∀ s : SLE, s.type = .ltDIR_NODE → look s = none)

include hd

theorem peek_page {k : Keylet} (hk : k.type = .ltDIR_NODE) (hv : v.Over B)
    (h : v.peek k = (o, v')) :
    Dulls look B v v' ∧ ∀ p, o = some p → v'.HasPage look p := by
  have hc (s : SLE) (h : k.check s) : s.type = .ltDIR_NODE := by
    simpa [Keylet.check, hk] using h
  refine ⟨peek_dulls hv (fun s hs => hd s (hc s hs)) h, fun p hp => ?_⟩
  subst hp
  exact ⟨hc _ (peek_eq_some hv h).left, (peek_dull hv (fun s hs => hd s (hc s hs)) h).left⟩

theorem update_page (hv : v.Over B) (hp : v.HasPage look p) (h : v.update p = .ok v') :
    Dulls look B v v' :=
  update_dulls hv h (hd _ hp.type) hp.dull

theorem erase_page (hv : v.Over B) (hp : v.HasPage look p) (h : v.erase p = .ok v') :
    Dulls look B v v' :=
  erase_dulls hv h (hd _ hp.type) hp.dull

theorem insert_page {s : SLE} (hv : v.Over B) (hs : s.type = .ltDIR_NODE)
    (ha : v.alloc s = (p, v')) (h : v'.insert p = .ok v'') : Dulls look B v v'' := by
  have ⟨hp, hb, hi⟩ := item_alloc ha
  have h₁ := item_spares look hv hb hi
  exact h₁.trans (insert_dulls h₁.atop h (hd _ (hp ▸ hs)))

theorem erase_page_if {c : Prop} [Decidable c] (hv : v.Over B) (hp : v.HasPage look p)
    (h : (if c then (do return (true, ← v.erase p)) else return (true, v)) =
      (.ok (r, v') : Except String _)) : Dulls look B v v' := by
  split at h
  case isTrue =>
    have ⟨w, he, h⟩ := bind_eq_ok.mp h
    cases h
    exact erase_page hd hv hp he
  case isFalse => cases h; exact .refl hv

variable [Digest]

theorem peekOrError_page (hv : v.Over B) (h : v.peekOrError (.page key page) e = .ok (p, v')) :
    Dulls look B v v' ∧ v'.HasPage look p := by
  unfold peekOrError at h
  split at h
  case h_1 q w hpeek =>
    cases h
    have ⟨hdulls, hpage⟩ := peek_page hd (Keylet.type_page ..) hv hpeek
    exact ⟨hdulls, hpage _ rfl⟩
  case h_2 => cases h

variable {directory : Keylet} {key : UInt256} {page prevPage nextPage : UInt64} {keepRoot : Bool}

namespace dirRemove

section

variable (hv : v.Over B) (hn : v.HasPage look node)

include hv hn

theorem emptyRoot_dulls (h : emptyRoot v directory node keepRoot = .ok (r, v')) :
    Dulls look B v v' := by
  have ⟨_, h⟩ := ite_error_eq_ok.mp h
  have ⟨_, h⟩ := ite_error_eq_ok.mp h
  split at h
  case isTrue =>
    have ⟨⟨last, v₁⟩, hlast, h⟩ := bind_eq_ok.mp h
    have ⟨h₁, hl⟩ := peekOrError_page hd hv hlast
    dsimp only at h
    split at h
    case isTrue =>
      have ⟨v₂, hu, h⟩ := bind_eq_ok.mp h
      have h₂ := update_page hd h₁.atop (hn.dulls h₁).set.set hu
      have ⟨v₃, he, h⟩ := bind_eq_ok.mp h
      have h₃ := erase_page hd h₂.atop (hl.dulls h₂) he
      have h₁₃ := (h₁.trans h₂).trans h₃
      split at h
      case isTrue => cases h; exact h₁₃
      have ⟨v₄, he', h⟩ := bind_eq_ok.mp h
      cases h
      exact h₁₃.trans (erase_page hd h₃.atop (hn.dulls h₁₃).set.set he')
    case isFalse => cases h; exact h₁
  case isFalse =>
    split at h
    case isTrue => cases h; exact .refl hv
    case isFalse => exact erase_page_if hd hv hn h

theorem unlink_dulls (h : unlink v directory prevPage nextPage node = .ok (prev, next, v')) :
    Dulls look B v v' ∧ v'.HasPage look prev ∧ v'.HasPage look next := by
  have ⟨⟨prev₀, v₁⟩, hprev, h⟩ := bind_eq_ok.mp h
  have ⟨h₁, hp⟩ := peekOrError_page hd hv hprev
  have ⟨v₂, hu, h⟩ := bind_eq_ok.mp h
  have h₂ := update_page hd h₁.atop hp.set hu
  have ⟨⟨next₀, v₃⟩, hnext, h⟩ := bind_eq_ok.mp h
  have ⟨h₃, hx⟩ := peekOrError_page hd h₂.atop hnext
  have ⟨v₄, hu', h⟩ := bind_eq_ok.mp h
  have h₄ := update_page hd h₃.atop hx.set hu'
  have ⟨v₅, he, h⟩ := bind_eq_ok.mp h
  cases h
  have h₁₄ := ((h₁.trans h₂).trans h₃).trans h₄
  have h₅ := erase_page hd h₄.atop (hn.dulls h₁₄) he
  have hp₅ := (((hp.dulls h₂).dulls h₃).dulls h₄).dulls h₅
  have hx₅ := (hx.dulls h₄).dulls h₅
  exact ⟨h₁₄.trans h₅, hx₅.set.ite hp₅.set, hx₅.set⟩

theorem emptyPage_dulls (h : emptyPage v directory page node keepRoot = .ok (r, v')) :
    Dulls look B v v' := by
  have ⟨_, h⟩ := ite_error_eq_ok.mp h
  have ⟨_, h⟩ := ite_error_eq_ok.mp h
  have ⟨⟨prev, next, v₁⟩, hu, h⟩ := bind_eq_ok.mp h
  have ⟨h₁, hp, hx⟩ := unlink_dulls hd hv hn hu
  dsimp only at h
  split at h
  case isTrue =>
    have ⟨v₂, he, h⟩ := bind_eq_ok.mp h
    have h₂ := erase_page hd h₁.atop hx he
    have ⟨v₃, hu', h⟩ := bind_eq_ok.mp h
    have h₃ := update_page hd h₂.atop (hp.dulls h₂).set hu'
    have ⟨⟨root, v₄⟩, hr, h⟩ := bind_eq_ok.mp h
    have ⟨h₄, hroot⟩ := peekOrError_page hd h₃.atop hr
    have ⟨v₅, hu'', h⟩ := bind_eq_ok.mp h
    have h₅ := update_page hd h₄.atop hroot.set hu''
    have h₁₅ := (((h₁.trans h₂).trans h₃).trans h₄).trans h₅
    have hp₅ := (((hp.dulls h₂).dulls h₃).dulls h₄).dulls h₅
    exact h₁₅.trans (erase_page_if hd h₅.atop ((hroot.dulls h₅).set.ite hp₅.set) h)
  case isFalse => exact h₁.trans (erase_page_if hd h₁.atop hp h)

end

end dirRemove

theorem dirRemove_dulls (hv : v.Over B)
    (h : v.dirRemove directory page key keepRoot = .ok (r, v')) : Dulls look B v v' := by
  unfold dirRemove at h
  split at h
  case h_1 v₁ hpeek =>
    cases h
    exact (peek_page hd (Keylet.type_page ..) hv hpeek).left
  case h_2 node v₁ hpeek =>
    have ⟨h₁, hpage⟩ := peek_page hd (Keylet.type_page ..) hv hpeek
    have hn := hpage _ rfl
    dsimp only at h
    split at h
    case isTrue => cases h; exact h₁
    have ⟨v₂, hu, h⟩ := bind_eq_ok.mp h
    have h₂ := update_page hd h₁.atop hn.set hu
    have hn₂ := hn.dulls h₂
    split at h
    case isTrue => cases h; exact h₁.trans h₂
    split at h
    case isTrue => exact (h₁.trans h₂).trans (dirRemove.emptyRoot_dulls hd h₂.atop hn₂.set h)
    case isFalse => exact (h₁.trans h₂).trans (dirRemove.emptyPage_dulls hd h₂.atop hn₂.set h)

variable {preserveOrder : Bool} {describe : SLE → SLE}

theorem dirAdd.newPage_dulls (hdesc : ∀ s, (describe s).type = s.type)
    (hv : v.Over B) (hr : v.HasPage look root) (hn : v.HasPage look node)
    (h : dirAdd.newPage v directory key describe root node page = .ok (r, v')) :
    Dulls look B v v' := by
  unfold dirAdd.newPage at h
  dsimp only at h
  split at h
  case isTrue => cases h; exact .refl hv
  have ⟨v₁, hu, h⟩ := bind_eq_ok.mp h
  have h₁ := update_page hd hv hn.set hu
  have ⟨v₂, hu', h⟩ := bind_eq_ok.mp h
  have h₂ := update_page hd h₁.atop ((hn.dulls h₁).set.ite (hr.dulls h₁)).set hu'
  have ⟨v₃, hi, h⟩ := bind_eq_ok.mp h
  cases h
  refine (h₁.trans h₂).trans (insert_page hd h₂.atop ?_ rfl hi)
  rw [hdesc]
  split <;> exact Keylet.type_page ..

theorem dirAdd_dulls (hk : directory.type = .ltDIR_NODE)
    (hdesc : ∀ s, (describe s).type = s.type) (hv : v.Over B)
    (h : v.dirAdd preserveOrder directory key describe = .ok (r, v')) : Dulls look B v v' := by
  unfold dirAdd at h
  split at h
  case h_1 v₁ hpeek =>
    have ⟨h₁, _⟩ := peek_page hd hk hv hpeek
    have ⟨v₂, hi, h⟩ := bind_eq_ok.mp h
    cases h
    refine h₁.trans (insert_page hd h₁.atop ?_ rfl hi)
    rw [SLE.type_set, hdesc]
    exact hk
  case h_2 root v₁ hpeek =>
    have ⟨h₁, hpage⟩ := peek_page hd hk hv hpeek
    have hr := hpage _ rfl
    have ⟨⟨node, v₂⟩, hlast, h⟩ := bind_eq_ok.mp h
    have ⟨h₂, hn⟩ : Dulls look B v₁ v₂ ∧ v₂.HasPage look node := by
      unfold dirAdd.lastPage at hlast
      split at hlast
      case isTrue => exact peekOrError_page hd h₁.atop hlast
      case isFalse => cases hlast; exact ⟨.refl h₁.atop, hr⟩
    dsimp only at h
    split at h
    case isTrue =>
      have ⟨indexes, _, h⟩ := bind_eq_ok.mp h
      have ⟨v₃, hu, h⟩ := bind_eq_ok.mp h
      cases h
      exact (h₁.trans h₂).trans (update_page hd h₂.atop hn.set hu)
    case isFalse =>
      exact (h₁.trans h₂).trans (dirAdd.newPage_dulls hd hdesc h₂.atop (hr.dulls h₂) hn h)

end

end ApplyView
