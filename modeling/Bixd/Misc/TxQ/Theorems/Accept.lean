import Bixd.Misc.TxQ.Accept
import Bixd.Misc.TxQ.Theorems.Queue

open Position List Option

set_option linter.unusedSectionVars false

namespace TxQ

variable {A T V ρ : Type} [LinearOrder A] [DecidableEq ρ] {env : Env A T V ρ} {q q' : TxQ A T ρ}
  {r : A × SeqProxy} {c : MaybeTx A T ρ} {account : TxQAccount A T ρ} {s s' : Accepting A T V ρ}
  {view : V}

-- What a step of the loop does to the queue: it goes on to the next transaction in the order of
-- the fees, or else the queue gets shorter.
structure Advanced (q : TxQ A T ρ) (r : A × SeqProxy) (q' : TxQ A T ρ)
    (candidate : Option (A × SeqProxy)) : Prop where
  agree    : Agree q'
  mem      : ∀ r', candidate = some r' → r' ∈ q'.byFee
  progress : q'.byFee.length < q.byFee.length ∨
    q'.byFee = q.byFee ∧ candidate = Position.next q.byFee r

theorem Agree.next (h : Agree q) : Advanced q r q (q.next r) where
  agree := h
  mem _ := mem_of_next
  progress := .inr ⟨rfl, rfl⟩

theorem length_erase (h : r ∈ q.byFee) : (q.erase r).byFee.length < q.byFee.length := by
  rw [byFee_erase, length_erase_of_mem h]
  have := length_pos_of_mem h
  omega

theorem Agree.eraseAndAdvance (h : Agree q) (hr : r ∈ q.byFee) :
    Advanced q r (q.eraseAndAdvance r).1 (q.eraseAndAdvance r).2 where
  agree := h.erase r
  mem _ := h.eraseAndAdvance_mem
  progress := .inl (length_erase hr)

theorem Agree.keep (h : Agree q) (hr : r ∈ q.byFee)
    (ha : ∀ s, (account.transactions.find? s).isSome → (r.1, s) ∈ q.byFee) :
    Advanced q r (Accepting.keep q account r).1 (Accepting.keep q account r).2 := by
  unfold Accepting.keep
  split
  case isFalse => exact h.next
  split
  case isTrue => exact h.eraseAndAdvance hr
  cases hl : account.transactions.toList.getLast?
  case none => exact h.next
  case some e =>
    dsimp only [map_some, elim_some]
    split
    case isFalse => exact h.next
    case isTrue hne =>
      have hm : (r.1, e.1) ∈ q.byFee := by
        refine ha e.1 (isSome_iff_exists.mpr ⟨e.2, ?_⟩)
        exact OrderedMap.mem_toList.mp (mem_of_getLast? hl)
      exact ⟨h.erase _, fun _ => mem_of_next, .inl (length_erase hm)⟩

theorem Advanced.of_byFee (h : Advanced q r q' candidate) {p : TxQ A T ρ}
    (hp : q.byFee = p.byFee) : Advanced p r q' candidate :=
  ⟨h.agree, h.mem, hp ▸ h.progress⟩

theorem retains_retry (q : TxQ A T ρ) : Retains q r (Accepting.retry account ter) :=
  ⟨fun _ _ => rfl, fun _ _ => rfl, fun _ _ => rfl⟩

theorem refresh_eq (c : MaybeTx A T ρ) :
    (c.refresh env view).feeLevel = c.feeLevel ∧ (c.refresh env view).account = c.account ∧
      (c.refresh env view).seqProxy = c.seqProxy ∧
      (c.refresh env view).retriesRemaining = c.retriesRemaining := by
  unfold MaybeTx.refresh
  split
  case isTrue => exact ⟨rfl, rfl, rfl, rfl⟩
  case isFalse => exact ⟨rfl, rfl, rfl, rfl⟩

theorem retains_refresh (hc : q.find? r = some c) :
    Retains q r fun _ => c.refresh env view := by
  refine ⟨fun c' hc' => ?_, fun c' hc' => ?_, fun c' hc' => ?_⟩ <;>
    cases hc.symm.trans hc'
  · exact (refresh_eq c).1
  · exact (refresh_eq c).2.1
  · exact (refresh_eq c).2.2.1

theorem Agree.settle (h : Agree q) (hr : r ∈ q.byFee)
    (ha : ∀ s, (account.transactions.find? s).isSome → (r.1, s) ∈ q.byFee) :
    Advanced q r (Accepting.settle q account c r ter didApply).1
      (Accepting.settle q account c r ter didApply).2 := by
  unfold Accepting.settle
  split
  case isTrue => exact h.eraseAndAdvance hr
  split
  case isTrue =>
    refine ((h.modifyAccount fun x => ?_).eraseAndAdvance hr).of_byFee rfl
    split <;> rfl
  case isFalse => exact ((h.modify (retains_retry q)).keep hr ha).of_byFee rfl

theorem Agree.mem_of_account (h : Agree q) (ha : q.byAccount.find? r.1 = some account)
    (s : SeqProxy) (hs : (account.transactions.find? s).isSome) : (r.1, s) ∈ q.byFee := by
  rw [h.mem, find?, ha]
  exact hs

namespace Accepting

-- What holds before every step of the loop.
structure Inv (env : Env A T V ρ) (s : Accepting A T V ρ) : Prop where
  agree    : Agree s.queue
  mem      : ∀ r, s.candidate = some r → r ∈ s.queue.byFee
  attempts : ∀ a ∈ s.attempts, a.Sound env

def measure (n : Nat) (s : Accepting A T V ρ) : Nat :=
  s.queue.byFee.length * (n + 1) + (Position.rest s.queue.byFee s.candidate).length

theorem attempt_advanced (required : FeeLevel64) (h : Inv env s) (hc : s.candidate = some r)
    (ha : s.queue.byAccount.find? r.1 = some account)
    (ht : account.transactions.find? r.2 = some c) :
    Advanced s.queue r (s.attempt env account c r required).queue
      (s.attempt env account c r required).candidate := by
  have hfind : s.queue.find? r = some c := by rw [find?, ha, bind_some, ht]
  exact ((h.agree.modify (retains_refresh hfind)).settle (h.mem r hc)
    (h.agree.mem_of_account ha)).of_byFee rfl

theorem Step.inv (h : Inv env s) (hs : Step env s s') : Inv env s' := by
  cases hs
  case skip => exact ⟨h.agree, fun _ => mem_of_next, h.attempts⟩
  case attempt required hc ha ht hsound =>
    have hadv := attempt_advanced required h hc ha ht
    refine ⟨hadv.agree, hadv.mem, fun a hm => ?_⟩
    obtain rfl | hm := mem_cons.mp hm
    case inl => exact hsound
    case inr => exact h.attempts a hm

theorem measure_lt (s' : Accepting A T V ρ) (h : Inv env s) (hr : s.candidate = some r)
    (hn : s.queue.byFee.length ≤ n) (hadv : Advanced s.queue r s'.queue s'.candidate) :
    measure n s' < measure n s ∧ s'.queue.byFee.length ≤ n := by
  have ⟨t, ht⟩ := exists_from (h.mem r hr)
  have hle := (rest_sublist s'.queue.byFee s'.candidate).length_le
  unfold measure
  cases hadv.progress
  case inl hlt =>
    have : (s'.queue.byFee.length + 1) * (n + 1) ≤ s.queue.byFee.length * (n + 1) :=
      Nat.mul_le_mul_right _ hlt
    rw [Nat.succ_mul] at this
    omega
  case inr heq =>
    rw [heq.1, heq.2, rest_next h.agree.nodup, hr, rest, ht]
    exact ⟨Nat.add_lt_add_left (Nat.lt_succ_self _) _, hn⟩

-- Every step lowers the measure: the rest gets shorter, or the queue does.
theorem Step.measure (h : Inv env s) (hs : Step env s s') (hn : s.queue.byFee.length ≤ n) :
    measure n s' < measure n s ∧ s'.queue.byFee.length ≤ n ∧
      s'.attempts.length ≤ s.attempts.length + 1 := by
  cases hs
  case skip hr =>
    have ⟨hlt, hn⟩ := measure_lt { s with candidate := s.queue.next _ } h hr hn h.agree.next
    exact ⟨hlt, hn, Nat.le_succ _⟩
  case attempt required hr ha ht _ =>
    have ⟨hlt, hn⟩ := measure_lt _ h hr hn (attempt_advanced required h hr ha ht)
    exact ⟨hlt, hn, Nat.le_refl _⟩

theorem loop_succ (h : Inv env s) (fuel : Nat) :
    (∃ e, loop env (fuel + 1) s = some (s, e) ∧ (e = .stopped → s.Short env)) ∨
      ∃ s', Step env s s' ∧ loop env (fuel + 1) s = loop env fuel s' := by
  generalize hl : loop env (fuel + 1) s = res
  rw [loop] at hl
  cases hr : s.candidate
  case none =>
    rw [hr] at hl
    exact .inl ⟨.finished, hl.symm, nofun⟩
  case some r =>
    have hm := h.mem r hr
    have ⟨account, c, ha, ht, hc⟩ := h.agree.exists_find? hm
    have ⟨first, hfirst⟩ := OrderedMap.exists_head?_toList ht
    simp only [hr, ha, ht, hfirst, bind_eq_bind, bind_some] at hl
    split at hl
    case isTrue => exact .inr ⟨_, .skip hr, hl.symm⟩
    case isFalse hskip =>
      split at hl
      case h_1 => exact .inl ⟨.thrown, hl.symm, nofun⟩
      case h_2 required hreq =>
        split at hl
        case isTrue hpaid =>
          refine .inr ⟨_, .attempt hr ha ht ?_, hl.symm⟩
          refine ⟨hm, hreq, feeLevel_eq hc ▸ hpaid, fun hseq k hk => ?_⟩
          have ⟨account', c', ha', hc', _⟩ := h.agree.exists_find? hk
          cases ha.symm.trans ha'
          have hle := (OrderedMap.head?_toList_eq_some hfirst).2 k c' hc'
          exact le_trans (not_lt.mp fun hlt => hskip ⟨hseq, hlt⟩) hle
        case isFalse hpaid =>
          refine .inl ⟨.stopped, hl.symm, fun _ => ⟨r, required, hr, hm, hreq, fun r' hr' => ?_⟩⟩
          refine UInt64.lt_of_le_of_lt (h.agree.feeLevel_le hr') ?_
          rw [feeLevel_eq hc]
          exact UInt64.not_le.mp hpaid

-- The run of the loop, by induction on the fuel, of which the measure is a bound.
theorem loop_inv (h : Inv env s) (hn : s.queue.byFee.length ≤ n) (hf : measure n s < fuel) :
    ∃ s' e, loop env fuel s = some (s', e) ∧ Inv env s' ∧
      s'.attempts.length ≤ s.attempts.length + measure n s ∧ (e = .stopped → s'.Short env) := by
  induction fuel generalizing s
  case zero => exact absurd hf (Nat.not_lt_zero _)
  case succ fuel hi =>
    cases loop_succ h fuel
    case inl hend =>
      have ⟨e, he, hstop⟩ := hend
      exact ⟨s, e, he, h, Nat.le_add_right _ _, hstop⟩
    case inr hstep =>
      have ⟨s₁, hs, hl⟩ := hstep
      have ⟨hlt, hn₁, hlen₁⟩ := hs.measure h hn
      have ⟨s', e, he, hi', hlen, hstop⟩ := hi (hs.inv h) hn₁ (by omega)
      exact ⟨s', e, hl.trans he, hi', by omega, hstop⟩

theorem loop_induction {P : Accepting A T V ρ → Prop}
    (hstep : ∀ s s', Inv env s → Step env s s' → P s → P s') (h : Inv env s) (hp : P s)
    (hl : loop env fuel s = some (s', e)) : P s' := by
  induction fuel generalizing s
  case zero => cases hl
  case succ fuel hi =>
    cases loop_succ h fuel
    case inl hend =>
      have ⟨_, he, _⟩ := hend
      cases he.symm.trans hl
      exact hp
    case inr hnext =>
      have ⟨s₁, hs, heq⟩ := hnext
      exact hi (hs.inv h) (hstep s s₁ h hs hp) (heq ▸ hl)

end Accepting

theorem Agree.start (env : Env A T V ρ) (h : Agree q) (view : V) :
    Accepting.Inv env ⟨q, view, q.byFee.head?, false, []⟩ :=
  ⟨h, fun _ => mem_of_mem_head?, nofun⟩

theorem Agree.loop (env : Env A T V ρ) (h : Agree q) (view : V) :
    ∃ s e, accept env q view = some (s, e) ∧ Accepting.Inv env s ∧
      s.attempts.length ≤ acceptSteps q.byFee.length ∧ (e = .stopped → s.Short env) := by
  have hm : Accepting.measure q.byFee.length
      (⟨q, view, q.byFee.head?, false, []⟩ : Accepting A T V ρ) ≤
        acceptSteps q.byFee.length :=
    Nat.add_le_add_left (rest_sublist _ _).length_le _
  have ⟨s, e, hl, hi, hlen, hstop⟩ := Accepting.loop_inv (h.start env view) (Nat.le_refl _)
    (Nat.lt_succ_of_le hm)
  exact ⟨s, e, hl, hi, by simpa using hlen.trans (Nat.add_le_add_left hm _), hstop⟩

-- A step that goes on in the order of the fees.
structure Forward (q : TxQ A T ρ) (r : A × SeqProxy) (q' : TxQ A T ρ)
    (candidate : Option (A × SeqProxy)) : Prop where
  inOrder : InOrder q'
  rest    : ∀ r' ∈ Position.rest q'.byFee candidate, r' ∈ (Position.from q.byFee r).tail

theorem Forward.of_byFee (h : Forward q r q' candidate) {p : TxQ A T ρ}
    (hp : q.byFee = p.byFee) : Forward p r q' candidate :=
  ⟨h.inOrder, hp ▸ h.rest⟩

namespace InOrder

theorem of_byFee (h : InOrder q) (hp : q.byFee = q'.byFee) : InOrder q' := by
  unfold InOrder
  exact hp ▸ h

theorem erase (h : InOrder q) : InOrder (q.erase r) :=
  Pairwise.sublist erase_sublist h

section

variable (ha : Agree q) (h : InOrder q)

include ha h

-- The next transaction of the account is behind this one, so it pays no more than the one right
-- behind it.
theorem eraseAndAdvance_eq (hr : r ∈ q.byFee) : (q.eraseAndAdvance r).2 = q.next r := by
  cases eraseAndAdvance_snd q r
  case inl heq => exact heq
  case inr huse =>
    have ⟨n, _, hn, hfee⟩ := huse
    have ⟨hacc, hlt, hm⟩ := ha.accountNext hn
    have hne : r ≠ n := fun he => absurd (congrArg Prod.snd he) hlt.ne
    have hbehind : n ∈ (Position.from q.byFee r).tail := by
      refine (mem_tail_or hr hm hne).resolve_right fun hback => ?_
      exact lt_asymm hlt (rel_of_mem_tail h hback hacc)
    cases hnext : q.next r
    case none =>
      rw [next, Position.next, head?_eq_none_iff] at hnext
      rw [hnext] at hbehind
      cases hbehind
    case some m =>
      have hle := ha.feeLevel_le (mem_from_next ha.nodup hnext hbehind)
      exact absurd (hfee m hnext) (UInt64.not_lt.mpr hle)

theorem next : Forward q r q (q.next r) :=
  ⟨h, fun _ hr' => rest_next ha.nodup r ▸ hr'⟩

theorem eraseAndAdvance (hr : r ∈ q.byFee) :
    Forward q r (q.eraseAndAdvance r).1 (q.eraseAndAdvance r).2 := by
  refine ⟨h.erase, fun r' hr' => ?_⟩
  rw [h.eraseAndAdvance_eq ha hr] at hr'
  rw [← rest_next ha.nodup]
  change r' ∈ rest q.byFee (q.next r)
  cases hn : q.next r
  case none =>
    rw [hn] at hr'
    cases hr'
  case some n =>
    rw [hn] at hr'
    have hmem := ha.nodup.mem_erase_iff.mpr ⟨next_ne ha.nodup hn, mem_of_next hn⟩
    exact (from_sublist_from erase_sublist ha.nodup hmem).subset hr'

theorem drop (hr : r ∈ q.byFee) (hne : r' ≠ r) :
    Forward q r (q.erase r') ((q.erase r').next r) := by
  have hmem := ha.nodup.mem_erase_iff.mpr ⟨hne.symm, hr⟩
  refine ⟨h.erase, fun x hx => ?_⟩
  have hx' : x ∈ (Position.from (q.erase r').byFee r).tail := by
    rw [← rest_next (ha.erase r').nodup]
    exact hx
  have hxr : x ≠ r := fun he => self_notMem_tail (ha.erase r').nodup r (he ▸ hx')
  refine mem_tail_of_ne hr ?_ hxr
  exact (from_sublist_from erase_sublist ha.nodup hmem).subset
    (mem_of_mem_tail hx')

theorem keep (hr : r ∈ q.byFee) :
    Forward q r (Accepting.keep q account r).1 (Accepting.keep q account r).2 := by
  unfold Accepting.keep
  split
  case isFalse => exact h.next ha
  split
  case isTrue => exact h.eraseAndAdvance ha hr
  cases account.transactions.toList.getLast?
  case none => exact h.next ha
  case some e =>
    dsimp only [map_some, elim_some]
    split
    case isTrue hne => exact h.drop ha hr hne
    case isFalse => exact h.next ha

theorem settle (hr : r ∈ q.byFee) :
    Forward q r (Accepting.settle q account c r ter didApply).1
      (Accepting.settle q account c r ter didApply).2 := by
  unfold Accepting.settle
  split
  case isTrue => exact h.eraseAndAdvance ha hr
  split
  case isTrue =>
    refine (eraseAndAdvance (ha.modifyAccount fun x => ?_) (h.of_byFee rfl) hr).of_byFee rfl
    split <;> rfl
  case isFalse => exact (keep (ha.modify (retains_retry q)) (h.of_byFee rfl) hr).of_byFee rfl

end

end InOrder

namespace Accepting

-- Nothing that was attempted comes again.
structure Once (s : Accepting A T V ρ) : Prop where
  inOrder : InOrder s.queue
  nodup   : (s.attempts.map Attempt.tx).Nodup
  rest    : ∀ r ∈ Position.rest s.queue.byFee s.candidate, r ∉ s.attempts.map Attempt.tx

theorem Once.of_forward (h : Once s) (hr : s.candidate = some r)
    (hf : Forward s.queue r s'.queue s'.candidate) (ha : s'.attempts = s.attempts) : Once s' := by
  refine ⟨hf.inOrder, ha ▸ h.nodup, fun r' hr' => ha ▸ h.rest r' ?_⟩
  rw [hr]
  exact mem_of_mem_tail (hf.rest r' hr')

theorem Once.of_attempt (h : Once s) (hn : s.queue.byFee.Nodup) (hr : s.candidate = some r)
    (hm : r ∈ s.queue.byFee) (hf : Forward s.queue r s'.queue s'.candidate)
    (ha : s'.attempts.map Attempt.tx = r :: s.attempts.map Attempt.tx) : Once s' := by
  have ⟨t, ht⟩ := exists_from hm
  have hr' : r ∈ Position.rest s.queue.byFee s.candidate := by
    rw [hr, Position.rest, ht]
    exact mem_cons_self
  refine ⟨hf.inOrder, ?_, fun x hx => ?_⟩
  case refine_1 =>
    rw [ha]
    exact nodup_cons.mpr ⟨h.rest r hr', h.nodup⟩
  have hx := hf.rest x hx
  rw [ha, mem_cons, not_or]
  refine ⟨fun he => self_notMem_tail hn r (he ▸ hx), h.rest x ?_⟩
  rw [hr]
  exact mem_of_mem_tail hx

theorem Once.step (h : Inv env s) (hs : Step env s s') (ho : Once s) : Once s' := by
  cases hs
  case skip hr => exact ho.of_forward hr (ho.inOrder.next h.agree) rfl
  case attempt r account c required hr ha ht _ =>
    have hfind : s.queue.find? r = some c := by rw [find?, ha, bind_some, ht]
    have hf : Forward s.queue r (s.attempt env account c r required).queue
        (s.attempt env account c r required).candidate :=
      (InOrder.settle (h.agree.modify (retains_refresh hfind)) (ho.inOrder.of_byFee rfl)
        (h.mem r hr)).of_byFee rfl
    exact ho.of_attempt h.agree.nodup hr (h.mem r hr) hf rfl

end Accepting

theorem InOrder.once (ho : InOrder q) (h : Agree q)
    (ha : accept env q view = some (s, e)) : s.Once :=
  Accepting.loop_induction (fun _ _ hi hs hp => hp.step hi hs) (h.start env view)
    ⟨ho, .nil, fun _ _ => not_mem_nil⟩ ha

section

variable {r₁ : A × SeqProxy}

section

variable (hd : r₁.1 = r.1 → account.dropPenalty = false) (hne : r ≠ r₁)

include hd hne

theorem find?_keep_of_ne : (Accepting.keep q account r₁).1.find? r = q.find? r := by
  unfold Accepting.keep
  split
  case isFalse => rfl
  case isTrue hdrop =>
    have hacc : r.1 ≠ r₁.1 := fun he => Bool.false_ne_true ((hd he.symm).symm.trans hdrop.1)
    split
    case isTrue => exact (find?_erase q r₁ r).trans (if_neg hne)
    cases account.transactions.toList.getLast?
    case none => rfl
    case some e =>
      dsimp only [map_some, elim_some]
      split
      case isFalse => rfl
      case isTrue =>
        have hne' : r ≠ (r₁.1, e.1) := fun he => hacc (by rw [he])
        exact (find?_erase q (r₁.1, e.1) r).trans (if_neg hne')

theorem find?_settle_of_ne :
    (Accepting.settle q account c r₁ ter didApply).1.find? r = q.find? r := by
  unfold Accepting.settle
  split
  case isTrue => exact (find?_erase q r₁ r).trans (if_neg hne)
  split
  case isTrue =>
    refine (find?_erase _ r₁ r).trans ((if_neg hne).trans (find?_modifyAccount q fun x => ?_))
    split <;> rfl
  case isFalse => exact (find?_keep_of_ne hd hne).trans ((find?_modify q r₁ r).trans (if_neg hne))

end

theorem find?_settle_self (hc : q.find? r = some c₁)
    (hsame : c₁.retriesRemaining = c.retriesRemaining) (hr : 0 < c.retriesRemaining)
    (hter : ¬ isTefFailure ter ∧ ¬ isTemMalformed ter) (hp : account.retryPenalty = false)
    (hd : account.dropPenalty = false) :
    ∃ c', (Accepting.settle q account c r ter false).1.find? r = some c' ∧
      c'.retriesRemaining = c.retriesRemaining - 1 := by
  have hno := not_or.mpr ⟨hter.1, not_or.mpr ⟨hter.2, not_le.mpr hr⟩⟩
  have heq : (Accepting.settle q account c r ter false).1 =
      q.modify r (Accepting.retry account ter) := by
    simp only [Accepting.settle, Bool.false_eq_true, if_false, if_neg hno, Accepting.keep, hd,
      false_and]
  refine ⟨Accepting.retry account ter c₁, ?_, ?_⟩
  · rw [heq, find?_modify, if_pos rfl, hc]
    rfl
  · simp only [Accepting.retry, hp, Bool.false_eq_true, false_and, if_false, hsame]

end

theorem Patient.mono (s : Accepting A T V ρ) (h : Patient env r s')
    (hs : ∀ a ∈ s.attempts, a ∈ s'.attempts) : Patient env r s :=
  ⟨fun a ha => h.penalties a (hs a ha), fun a ha => h.retried a (hs a ha)⟩

namespace Accepting

-- Each attempt takes one of the `m` retries that a transaction has.
theorem retries_left {m : Nat} (h : Agree q) (ha : accept env q view = some (s, e))
    (hq : ∃ c, q.find? r = some c ∧ c.retriesRemaining = m) (hp : Patient env r s)
    (hm : (s.attempts.map Attempt.tx).count r ≤ m) :
    ∃ c, s.queue.find? r = some c ∧
      c.retriesRemaining = m - (s.attempts.map Attempt.tx).count r := by
  refine loop_induction (P := fun s => Patient env r s →
    (s.attempts.map Attempt.tx).count r ≤ m → ∃ c, s.queue.find? r = some c ∧
      c.retriesRemaining = m - (s.attempts.map Attempt.tx).count r) ?_ (h.start env view)
    (fun _ _ => by simpa using hq) ha hp hm
  intro s s' hi hs hprev hp hm
  cases hs
  case skip => exact hprev (hp.mono s fun _ ha => ha) hm
  case attempt r₁ account c required hr ha ht _ =>
    have hlog : (s.attempt env account c r₁ required).attempts =
      ⟨s.queue, s.view, r₁, required⟩ :: s.attempts := rfl
    have hp' := hp.mono s fun a ha => hlog ▸ mem_cons_of_mem _ ha
    have hpen := hp.penalties _ (hlog ▸ mem_cons_self)
    have hfind : s.queue.find? r₁ = some c := by rw [find?, ha, bind_some, ht]
    rw [hlog, map_cons] at hm ⊢
    by_cases hne : r = r₁
    case pos =>
      subst hne
      rw [count_cons_self] at hm ⊢
      obtain ⟨c', hc', hrem⟩ := hprev hp' (by omega)
      cases hfind.symm.trans hc'
      obtain ⟨hnone, htef, htem⟩ := hp.retried _ (hlog ▸ mem_cons_self) rfl c hfind
      obtain ⟨hpen₁, hpen₂⟩ := hpen account ha
      have hself : (s.queue.modify r fun _ => c.refresh env s.view).find? r =
          some (c.refresh env s.view) := by
        rw [find?_modify, if_pos rfl, hfind]
        rfl
      have hretry := find?_settle_self hself (refresh_eq c).2.2.2 (by omega) ⟨htef, htem⟩ hpen₁
        hpen₂
      obtain ⟨c₂, hc₂, hrem₂⟩ := hretry
      refine ⟨c₂, ?_, by push_cast; omega⟩
      rw [← hc₂]
      simp only [attempt]
      rw [show (c.apply env s.view).2.2 = none from hnone]
      rfl
    case neg =>
      rw [count_cons_of_ne (Ne.symm hne)] at hm ⊢
      obtain ⟨c', hc', hrem⟩ := hprev hp' hm
      refine ⟨c', ?_, hrem⟩
      rw [← hc']
      refine (find?_settle_of_ne (fun he => ?_) hne).trans
        ((find?_modify s.queue r₁ r).trans (if_neg hne))
      exact (hpen account (he ▸ ha)).2

end Accepting

theorem Offered.retries {k : Nat} (h : Offered env r q k) (hk : k < 10) :
    ∃ c, q.find? r = some c ∧ c.retriesRemaining = ((10 - k : Nat) : Int) := by
  induction h
  case queued hc hr => exact ⟨_, hc, hr⟩
  case other hfind hi => exact hfind ▸ hi hk
  case accept k _ s _ _ hq ho ha hp hi =>
    have hone := ho.once hq ha
    have hcount : (s.attempts.map Attempt.tx).count r =
        if r ∈ s.attempts.map Attempt.tx then 1 else 0 := by
      split
      case isTrue hm => exact count_eq_one_of_mem hone.nodup hm
      case isFalse hm => exact count_eq_zero.mpr hm
    have hle : (s.attempts.map Attempt.tx).count r ≤ 10 - k := by omega
    have ⟨c, hc, hrem⟩ := Accepting.retries_left hq ha (hi (by omega)) hp hle
    exact ⟨c, hc, by omega⟩

-- Accounts are numbers, and the ledger counts what was applied to it. What has the number two
-- is to be retried.
def sampleEnv : Env Nat (Nat × SeqProxy) Nat Unit where
  account := Prod.fst
  seqProxy := Prod.snd
  lastLedger _ := none
  chained _ := false
  fee _ := 10
  baseFee _ _ := 10
  defaultBaseFee _ _ := 10
  rules _ := ()
  seq _ := 1
  txCount v := .ofNat v
  reserve _ := 0
  accountRoot _ _ := some ⟨1, 1000⟩
  ticketExists _ _ _ := true
  bump v _ _ := v
  preflight _ t _ := (tesSUCCESS, ⟨false, 10, 0, t.2, 1⟩)
  preclaim _ _ _ := (tesSUCCESS, true)
  doApply t _ v := if t.2.value = 2 then (terPRE_SEQ, none) else (tesSUCCESS, some (v + 1))

def sampleTx (account : Nat) (s : SeqProxy) (level : FeeLevel64) :
    MaybeTx Nat (Nat × SeqProxy) Unit :=
  .ofTx sampleEnv (account, s) level tapNONE (sampleEnv.preflightResult 0 (account, s) tapNONE)

-- The second of two tickets pays more.
def ticketQueue : TxQ Nat (Nat × SeqProxy) Unit :=
  ((ofSetup {}).add (sampleTx 7 ⟨.ticket, 1⟩ 300)).add (sampleTx 7 ⟨.ticket, 2⟩ 900)

theorem ticketQueue_agree : Agree ticketQueue :=
  (Agree.add (.ofSetup {}) rfl).add rfl

def sequenceQueue : TxQ Nat (Nat × SeqProxy) Unit :=
  ((ofSetup {}).add (sampleTx 7 (.sequence 1) 900)).add (sampleTx 7 (.sequence 2) 300)

end TxQ
