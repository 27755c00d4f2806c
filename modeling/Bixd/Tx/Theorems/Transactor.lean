import Bixd.Ledger.Directory.Theorems.Frame
import Bixd.Tx.ApplySteps

open Keylet Except

-- What applying a transaction touches besides what the transaction itself is about: the sequence,
-- the balance and the counts of accounts, tickets, offers and directories.

namespace ApplyView

variable {α : Type} {look : SLE → Option α} {B : UInt256 → Option SLE} {v v' : ApplyView}
variable {p : SLEPtr}

-- Everything but the entries of one type is seen.
def lookBut (t : LedgerEntryType) (s : SLE) : Option SLE :=
  if s.type = t then none else some s

-- The entry is in the table as it was found.
def Rests (v : ApplyView) (p : SLEPtr) : Prop :=
  ∃ a q, v.item p.key = some (a, q) ∧ a ≠ .erase ∧ q.sle = p.sle

theorem peek_rests (hv : v.Over B) (h : v.peek k = (some p, v')) : v'.Rests p := by
  have ⟨a, q, hi, ha, hq⟩ := peek_knows some hv h
  exact ⟨a, q, hi, ha, Option.some.inj hq⟩

theorem Rests.spares (h : v.Rests p) (ht : p.sle.type ≠ t)
    (hs : Spares (lookBut t) B v v') : v'.Rests p := by
  have ⟨a, q, hi, ha, hq⟩ := h
  have hlook : lookBut t q.sle = some p.sle := by rw [hq]; exact if_neg ht
  have ⟨a', q', hi', hl, _, hq'⟩ := hs.keep _ a q hi ha (by rw [hlook]; rfl)
  refine ⟨a', q', hi', hl.ne_erase ha, ?_⟩
  rw [hlook] at hq'
  unfold lookBut at hq'
  have ⟨_, hq'⟩ := Option.ite_none_left_eq_some.mp hq'
  exact Option.some.inj hq'

theorem Rests.dull (h : v.Rests p) (hp : look p.sle = none) : v.Dull look p.key := by
  have ⟨a, q, hi, _, hq⟩ := h
  intro a' q' hi'
  rw [hi] at hi'
  cases hi'
  rw [hq]
  exact hp

end ApplyView

open ApplyView

variable {α : Type} {look : SLE → Option α} {B : UInt256 → Option SLE} {v v' : ApplyView}
variable {p : SLEPtr}

theorem Keylet.check_account [Digest] {id : AccountID} :
    (account id).check s ↔ s.type = .ltACCOUNT_ROOT := by
  simp [check, account]

-- The entry of an account that the view has.
structure HasRoot (look : SLE → Option α) (v : ApplyView) (p : SLEPtr) : Prop where
  type  : p.sle.type = .ltACCOUNT_ROOT
  knows : v.Knows look p

theorem peek_root [Digest] {id : AccountID} (look : SLE → Option α)
    (hv : v.Over B) (h : v.peek (.account id) = (o, v')) :
    Spares look B v v' ∧ ∀ p, o = some p → HasRoot look v' p ∧ p.key = (account id).key := by
  refine ⟨peek_spares _ hv h, fun p hp => ?_⟩
  subst hp
  have ⟨hc, hk, _⟩ := peek_eq_some hv h
  exact ⟨⟨check_account.mp hc, peek_knows _ hv h⟩, hk⟩

section

variable (hset : ∀ s x, s.type = .ltACCOUNT_ROOT → look (s.set sfOwnerCount x) = look s)
  (hv : v.Over B)

include hset hv

theorem adjustOwnerCount_spares (hp : HasRoot look v p)
    (h : adjustOwnerCount v p amount = .ok (p', v')) : Spares look B v v' := by
  have ⟨w, hu, h⟩ := bind_eq_ok.mp h
  cases h
  exact update_spares hv hu fun a q hq => (hp.knows.look_eq hq).trans (hset _ _ hp.type).symm

theorem adjustOwnerCountOf_spares [Digest] {id : AccountID}
    (h : adjustOwnerCountOf v id amount = .ok v') : Spares look B v v' := by
  unfold adjustOwnerCountOf at h
  split at h
  case h_1 w hpeek => cases h; exact peek_spares _ hv hpeek
  case h_2 sle w hpeek =>
    have ⟨⟨sle', w'⟩, ha, h⟩ := bind_eq_ok.mp h
    cases h
    have ⟨h₁, hroot⟩ := peek_root look hv hpeek
    exact h₁.trans (adjustOwnerCount_spares hset h₁.atop (hroot _ rfl).left ha)

end

theorem lookBut_of_type {s : SLE} (h : s.type = t) : lookBut t s = none :=
  if_pos h

theorem lookBut_root (s : SLE) (x : STVar) (h : s.type = .ltACCOUNT_ROOT) :
    lookBut .ltACCOUNT_ROOT (s.set sfOwnerCount x) = lookBut .ltACCOUNT_ROOT s :=
  (if_pos h).trans (if_pos h).symm

-- Nothing is seen of directories, tickets and offers, and of an account not what every transaction
-- changes.
structure Inert (look : SLE → Option α) : Prop where
  dir    : ∀ s, s.type = .ltDIR_NODE → look s = none
  ticket : ∀ s, s.type = .ltTICKET → look s = none
  offer  : ∀ s, s.type = .ltOFFER → look s = none
  root   : ∀ s, s.type = .ltACCOUNT_ROOT → (look s).isSome
  set    : ∀ s f x, s.type = .ltACCOUNT_ROOT →
    f ∈ [sfSequence, sfBalance, sfOwnerCount, sfTicketCount, sfAccountTxnID] →
    look (s.set f x) = look s
  absent : ∀ s, s.type = .ltACCOUNT_ROOT → look (s.makeFieldAbsent sfTicketCount) = look s

theorem Transactor.ticketDelete.count_eq :
    (ticketDelete.count s c).key = s.key ∧ (ticketDelete.count s c).type = s.type := by
  unfold ticketDelete.count
  split <;> exact ⟨rfl, rfl⟩

theorem Inert.ticketCount {s : SLE} (hl : Inert look) (h : s.type = .ltACCOUNT_ROOT) :
    look (Transactor.ticketDelete.count s c) = look s := by
  unfold Transactor.ticketDelete.count
  split
  case isTrue => exact hl.absent s h
  case isFalse => exact hl.set s _ _ h (by decide)

theorem Inert.count (hl : Inert look) (s : SLE) (x : STVar) (h : s.type = .ltACCOUNT_ROOT) :
    look (s.set sfOwnerCount x) = look s :=
  hl.set s _ x h (by decide)

theorem HasRoot.become {s : SLE} (h : HasRoot look v p) (hk : s.key = p.sle.key)
    (ht : s.type = p.sle.type) (hs : look s = look p.sle) : HasRoot look v { p with sle := s } := by
  have ⟨a, q, hi, ha, hq⟩ := h.knows
  have hkey : SLEPtr.key { p with sle := s } = p.key := hk
  exact ⟨ht.trans h.type, a, q, hkey ▸ hi, ha, hq.trans hs.symm⟩

theorem HasRoot.set (hl : Inert look) (h : HasRoot look v p)
    (hf : f ∈ [sfSequence, sfBalance, sfOwnerCount, sfTicketCount, sfAccountTxnID]) :
    HasRoot look v (p.set f x) :=
  h.become rfl rfl (hl.set _ f x h.type hf)

theorem HasRoot.spares (hl : Inert look) (h : HasRoot look v p) (hs : Spares look B v v') :
    HasRoot look v' p :=
  ⟨h.type, hs.knows h.knows (hl.root _ h.type)⟩

theorem HasRoot.update (hv : v.Over B) (h : HasRoot look v p) (hu : v.update p = .ok v') :
    Spares look B v v' :=
  update_spares hv hu fun _ _ hq => h.knows.look_eq hq

section

variable [Digest] {id : AccountID} (hl : Inert look)

include hl

theorem offerDelete_spares {ter : TER} (hv : v.Over B) (hp : v.Rests p)
    (ht : p.sle.type = .ltOFFER) (h : offerDelete v p = .ok (ter, v')) : Spares look B v v' := by
  have ⟨⟨removed, v₁⟩, hr, h⟩ := bind_eq_ok.mp h
  have h₁ := (dirRemove_dulls hl.dir hv hr).toSpares
  have hdir (s : SLE) := lookBut_of_type (t := .ltDIR_NODE) (s := s)
  have hp₁ := hp.spares (by simp [ht]) (dirRemove_dulls hdir hv hr).toSpares
  dsimp only at h
  split at h
  case isTrue => cases h; exact h₁
  have ⟨⟨removed, v₂⟩, hr', h⟩ := bind_eq_ok.mp h
  have h₂ := (dirRemove_dulls hl.dir h₁.atop hr').toSpares
  have hp₂ := hp₁.spares (by simp [ht]) (dirRemove_dulls hdir h₁.atop hr').toSpares
  split at h
  case isTrue => cases h; exact h₁.trans h₂
  have ⟨v₃, ha, h⟩ := bind_eq_ok.mp h
  have h₃ := adjustOwnerCountOf_spares hl.count h₂.atop ha
  have hp₃ := hp₂.spares (by simp [ht])
    (adjustOwnerCountOf_spares lookBut_root h₂.atop ha)
  have ⟨v₄, he, h⟩ := bind_eq_ok.mp h
  cases h
  have hn := hl.offer _ ht
  exact ((h₁.trans h₂).trans h₃).trans (erase_dulls h₃.atop he hn (hp₃.dull hn)).toSpares

namespace Transactor

variable {tx : STTx}

theorem ticketDelete_spares {ticketIndex : UInt256} (hv : v.Over B)
    (h : ticketDelete v id ticketIndex = .ok (ter, v')) : Spares look B v v' := by
  unfold ticketDelete at h
  split at h
  case h_1 w hpeek => cases h; exact peek_spares _ hv hpeek
  case h_2 sleTicket v₁ hpeek =>
    have h₁ := peek_spares look hv hpeek
    have ht : sleTicket.sle.type = .ltTICKET := by
      simpa [check] using (peek_eq_some hv hpeek).left
    obtain ⟨⟨removed, v₂⟩, hr, h⟩ := bind_eq_ok.mp h
    have h₂ := (dirRemove_dulls hl.dir h₁.atop hr).toSpares
    have hp₂ := (peek_rests hv hpeek).spares (by simp [ht])
      (dirRemove_dulls (fun _ => lookBut_of_type) h₁.atop hr).toSpares
    have h₁₂ := h₁.trans h₂
    dsimp only at h
    split at h
    case isTrue => cases h; exact h₁₂
    split at h
    case h_1 w hpeek' => cases h; exact h₁₂.trans (peek_spares _ h₂.atop hpeek')
    case h_2 sleAccount v₃ hpeek' =>
      obtain ⟨h₃, hroot⟩ := peek_root look h₂.atop hpeek'
      obtain ⟨hroot, _⟩ := hroot _ rfl
      have hp₃ := hp₂.spares (t := .ltACCOUNT_ROOT) (by simp [ht])
        (peek_spares _ h₂.atop hpeek')
      split at h
      case h_1 => cases h; exact h₁₂.trans h₃
      case h_2 ticketCount hc =>
        obtain ⟨⟨sle', v₄⟩, ha, h⟩ := bind_eq_ok.mp h
        obtain ⟨v₅, he, h⟩ := bind_eq_ok.mp h
        cases h
        obtain ⟨hk, htype⟩ := ticketDelete.count_eq (s := sleAccount.sle) (c := ticketCount)
        have hcount := hroot.become hk htype (hl.ticketCount hroot.type)
        have h₄ := adjustOwnerCount_spares hl.count h₃.atop hcount ha
        have hbut := ((peek_root _ h₂.atop hpeek').right _ rfl).left.become hk htype
          ((lookBut_of_type (htype.trans hroot.type)).trans (lookBut_of_type hroot.type).symm)
        have hp₄ := hp₃.spares (by simp [ht])
          (adjustOwnerCount_spares lookBut_root h₃.atop hbut ha)
        have hn := hl.ticket _ ht
        exact ((h₁₂.trans h₃).trans h₄).trans (erase_dulls h₄.atop he hn (hp₄.dull hn)).toSpares

theorem consumeSeqProxy_spares (hv : v.Over B) (hp : HasRoot look v p)
    (h : consumeSeqProxy tx v p = .ok (ter, v')) : Spares look B v v' := by
  unfold consumeSeqProxy at h
  dsimp only at h
  split at h
  case isTrue =>
    have ⟨w, hu, h⟩ := bind_eq_ok.mp h
    cases h
    exact (hp.set hl (by decide)).update hv hu
  case isFalse => exact ticketDelete_spares hl hv h

theorem payFee_spares {ter : TER} (hv : v.Over B)
    (h : payFee tx v mPriorBalance = .ok (ter, v')) : Spares look B v v' := by
  have ⟨feePaid, _, h⟩ := bind_eq_ok.mp h
  split at h
  case h_1 w hpeek => cases h; exact peek_spares _ hv hpeek
  case h_2 sle w hpeek =>
    have ⟨h₁, hroot⟩ := peek_root look hv hpeek
    have ⟨w', hu, h⟩ := bind_eq_ok.mp h
    cases h
    exact h₁.trans (((hroot _ rfl).left.set hl (by decide)).update h₁.atop hu)

theorem apply.track_spares (hv : v.Over B) (h : apply.track tx v = .ok v') :
    Spares look B v v' := by
  unfold apply.track at h
  split at h
  case h_1 w hpeek => cases h; exact peek_spares _ hv hpeek
  case h_2 sle w hpeek =>
    have ⟨h₁, hroot⟩ := peek_root look hv hpeek
    have ⟨hroot, _⟩ := hroot _ rfl
    split at h
    case isTrue => exact h₁.trans ((hroot.set hl (by decide)).update h₁.atop h)
    case isFalse => exact h₁.trans (hroot.update h₁.atop h)

theorem removeUnfundedOffers_spares (hv : v.Over B)
    (h : removeUnfundedOffers removed offers v = .ok v') : Spares look B v v' := by
  induction offers generalizing removed v
  case nil => cases h; exact .refl hv
  case cons index offers hi =>
    unfold removeUnfundedOffers at h
    split at h
    case h_1 w hpeek =>
      have h₁ := peek_spares look hv hpeek
      exact h₁.trans (hi h₁.atop h)
    case h_2 sleOffer w hpeek =>
      have h₁ := peek_spares look hv hpeek
      have ht : sleOffer.sle.type = .ltOFFER := by
        simpa [check] using (peek_eq_some hv hpeek).left
      obtain ⟨⟨_, v₂⟩, ho, h⟩ := bind_eq_ok.mp h
      have h₂ := offerDelete_spares hl h₁.atop (peek_rests hv hpeek) ht ho
      dsimp only at h
      split at h
      case isTrue => cases h; exact h₁.trans h₂
      case isFalse => exact (h₁.trans h₂).trans (hi h₂.atop h)

variable {base : ReadView} {checks : InvariantChecks} {fee : Int} {result ter : TER}

theorem reset_spares {fee' : Int} (hb : base.Denotes B)
    (h : reset tx base fee = .ok (ter, fee', v')) : Spares look B ⟨base, {}⟩ v' := by
  have hv := Over.init hb
  unfold reset at h
  split at h
  case h_1 w hpeek => cases h; exact peek_spares _ hv hpeek
  case h_2 txnAcct w hpeek =>
    have ⟨h₁, hroot⟩ := peek_root look hv hpeek
    have hroot := (hroot _ rfl).left
    have ⟨balance, _, h⟩ := bind_eq_ok.mp h
    have ⟨v₂, hu, h⟩ := bind_eq_ok.mp h
    have hset := hroot.set (f := sfBalance)
      (x := .amount (.ofDrops (balance - if fee > balance then balance else fee))) hl (by decide)
    have h₂ := hset.update h₁.atop hu
    have ⟨⟨ter', v₃⟩, hc, h⟩ := bind_eq_ok.mp h
    cases h
    exact (h₁.trans h₂).trans (consumeSeqProxy_spares hl h₂.atop (hset.spares hl h₂) hc)

theorem call.finish_cases (hb : base.Denotes B)
    (h : call.finish checks tx base result fee v = .ok (ter, some v')) :
    (v'.base = v.base ∧ v'.item = v.item) ∨ Spares look B ⟨base, {}⟩ v' := by
  have ⟨⟨result', fee', w⟩, hr, h⟩ := bind_eq_ok.mp h
  have hw : w = v ∨ Spares look B ⟨base, {}⟩ w := by
    split at hr
    case isTrue =>
      have ⟨⟨ter', fee'', u⟩, hreset, hr⟩ := bind_eq_ok.mp hr
      have hs := reset_spares hl hb hreset
      dsimp only at hr
      split at hr
      case isTrue => cases hr; exact .inr hs
      case isFalse => cases hr; exact .inr hs
    case isFalse => cases hr; exact .inl rfl
  have hv' : v'.base = w.base ∧ v'.item = w.item := by
    dsimp only at h
    split at h
    case isTrue => cases h
    split at h
    case isTrue => cases h
    split at h
    case isTrue => cases h; exact ⟨rfl, rfl⟩
    case isFalse => cases h; exact ⟨rfl, rfl⟩
  rcases hw with rfl | hs
  · exact .inl hv'
  · exact .inr (hs.trans (item_spares _ hs.atop hv'.left hv'.right).toSpares)

theorem call.claim_spares (hb : base.Denotes B)
    (h : call.claim checks tx base result fee v = .ok (ter, some v')) :
    Spares look B ⟨base, {}⟩ v' := by
  have ⟨⟨ter', fee', w⟩, hreset, h⟩ := bind_eq_ok.mp h
  have hs := reset_spares hl hb hreset
  dsimp only at h
  generalize (if (!isTesSuccess ter') = true then ter' else result) = result₁ at h
  have ⟨u, hu, h⟩ := bind_eq_ok.mp h
  have hs' : Spares look B ⟨base, {}⟩ u := by
    split at hu
    case isTrue => exact hs.trans (removeUnfundedOffers_spares hl hs.atop hu)
    case isFalse => cases hu; exact hs
  split at h
  case isFalse => cases h
  rcases call.finish_cases hl hb h with ⟨hbase, hitem⟩ | hspares
  · exact hs'.trans (item_spares _ hs'.atop hbase hitem).toSpares
  · exact hspares

variable {T : Transactor} {ctx : ApplyContext}

theorem apply_cases (hv : v.Over B) (h : T.apply ctx v = .ok (ter, v')) :
    ter ≠ tesSUCCESS ∨ ∃ m w, Spares look B v w ∧ T.doApply ctx m w = .ok (ter, v') := by
  unfold apply at h
  split at h
  case h_1 w hpeek => exact .inr ⟨0, w, peek_spares _ hv hpeek, h⟩
  case h_2 sle v₁ hpeek =>
    have ⟨h₁, hroot⟩ := peek_root look hv hpeek
    have ⟨m, _, h⟩ := bind_eq_ok.mp h
    have ⟨⟨r, v₂⟩, hc, h⟩ := bind_eq_ok.mp h
    have h₂ := consumeSeqProxy_spares hl h₁.atop (hroot _ rfl).left hc
    dsimp only at h
    split at h
    case isTrue hr => cases h; exact .inl hr
    have ⟨⟨r', v₃⟩, hp, h⟩ := bind_eq_ok.mp h
    have h₃ := payFee_spares hl h₂.atop hp
    split at h
    case isTrue hr => cases h; exact .inl hr
    have ⟨v₄, ht, h⟩ := bind_eq_ok.mp h
    have h₄ := apply.track_spares hl h₃.atop ht
    exact .inr ⟨m, v₄, ((h₁.trans h₂).trans h₃).trans h₄, h⟩

theorem call_cases (hb : base.Denotes B)
    (h : T.call checks ctx preclaimResult base = .ok (ter, some v')) :
    Spares look B ⟨base, {}⟩ v' ∨
      ∃ m w v, Spares look B ⟨base, {}⟩ w ∧ T.doApply ctx m w = .ok (tesSUCCESS, v) ∧
        (v'.base = v.base) ∧ (v'.item = v.item) := by
  have ⟨⟨result, v⟩, hr, h⟩ := bind_eq_ok.mp h
  have ⟨fee, _, h⟩ := bind_eq_ok.mp h
  dsimp only at h
  generalize (if v.items.size > oversizeMetaDataCap then tecOVERSIZE else result) = result₁ at h
  split at h
  case isTrue => cases h
  split at h
  case isTrue => exact .inl (call.claim_spares hl hb h)
  split at h
  case isFalse => cases h
  case isTrue happlied =>
    have hter := of_decide_eq_true happlied
    rw [hter] at hr
    rcases call.finish_cases hl hb h with ⟨hbase, hitem⟩ | hs
    · split at hr
      case isTrue =>
        rcases apply_cases hl (Over.init hb) hr with hne | ⟨m, w, hw, hd⟩
        · exact absurd rfl hne
        · exact .inr ⟨m, w, v, hw, hd, hbase, hitem⟩
      case isFalse hne => cases hr; exact absurd rfl hne
    · exact .inl hs

open ReadView in
theorem applyTo_cases [Ripesha] (h : T.applyTo checks ctx sigValid l = .ok (ter, l')) :
    seen look l' = seen look l ∨
      ∃ m w v, ∃ v' : ApplyView, T.preflight ⟨ctx.tx, l.rules, sigValid⟩ = .ok tesSUCCESS ∧
        Spares look l.contents.state ⟨l.view, {}⟩ w ∧ T.doApply ctx m w = .ok (tesSUCCESS, v) ∧
        (v'.base = v.base) ∧ (v'.item = v.item) ∧ v'.apply l = .ok l' := by
  have ⟨ter₀, hpre, h⟩ := bind_eq_ok.mp h
  split at h
  case isTrue => cases h; exact .inl rfl
  case isFalse hter =>
    rw [not_not.mp hter] at hpre
    have ⟨ter₁, _, h⟩ := bind_eq_ok.mp h
    split at h
    case isTrue => cases h; exact .inl rfl
    case isFalse =>
      have ⟨⟨ter₂, o⟩, hcall, h⟩ := bind_eq_ok.mp h
      cases o
      case none => cases h; exact .inl rfl
      case some v' =>
        have ⟨l₁, happly, h⟩ := bind_eq_ok.mp h
        cases h
        rcases call_cases hl l.denotes hcall with hs | ⟨m, w, v, hw, hd, hb, hi⟩
        · exact .inl (seen_of_quiet hs.atop (fun n => hs.quiet n (Quiet.init n)) happly)
        · exact .inr ⟨m, w, v, v', hpre, hw, hd, hb, hi, happly⟩

end Transactor

end
