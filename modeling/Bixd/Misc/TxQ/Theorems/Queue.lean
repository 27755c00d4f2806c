import Bixd.Misc.TxQ.Queue

open OrderedMap Position Option Prod List

namespace TxQ

variable {A T V ρ : Type} [LinearOrder A] {q : TxQ A T ρ} {r : A × SeqProxy} {c : MaybeTx A T ρ}

theorem find?_account (q : TxQ A T ρ) (a : A) :
    (q.modifyAccount a g).byAccount.find? r.1 =
      if r.1 = a then (q.byAccount.find? a).map g else q.byAccount.find? r.1 := by
  unfold modifyAccount
  cases h : q.byAccount.find? a
  case none =>
    dsimp only [elim_none, map_none]
    split
    case isTrue hr => rw [hr, h]
    case isFalse => rfl
  case some x => exact find?_insert _ _ _ _

theorem find?_modifyAccount (q : TxQ A T ρ) (hg : ∀ x, (g x).transactions = x.transactions) :
    (q.modifyAccount a g).find? r = q.find? r := by
  unfold find?
  rw [find?_account]
  split
  case isTrue hr =>
    rw [hr]
    cases q.byAccount.find? a
    case none => rfl
    case some x => simp only [map_some, bind_some, hg]
  case isFalse => rfl

theorem find?_modify (q : TxQ A T ρ) (r r' : A × SeqProxy) :
    (q.modify r f).find? r' = if r' = r then (q.find? r).map f else q.find? r' := by
  unfold find? modify
  rw [find?_account]
  by_cases hr : r'.1 = r.1
  case neg =>
    have hne : r' ≠ r := fun h => hr (congrArg fst h)
    rw [if_neg hr, if_neg hne]
  rw [if_pos hr, hr]
  cases q.byAccount.find? r.1
  case none => simp
  case some x =>
    simp only [map_some, bind_some]
    cases hx : x.transactions.find? r.2
    case none =>
      simp only [elim_none, map_none]
      split
      case isTrue h => rw [h, hx]
      case isFalse => rfl
    case some c =>
      simp only [elim_some, find?_insert, map_some]
      by_cases hs : r'.2 = r.2
      case pos => rw [if_pos hs, if_pos (Prod.ext hr hs)]
      case neg => rw [if_neg hs, if_neg fun h => hs (congrArg snd h)]

theorem find?_erase (q : TxQ A T ρ) (r r' : A × SeqProxy) :
    (q.erase r).find? r' = if r' = r then none else q.find? r' := by
  have hfind : (q.erase r).find? r' =
      ((q.modifyAccount r.1 fun a =>
        { a with transactions := a.transactions.erase r.2 }).byAccount.find? r'.1).bind fun a =>
          a.transactions.find? r'.2 := rfl
  rw [hfind, find?_account]
  by_cases hr : r'.1 = r.1
  case neg =>
    have hne : r' ≠ r := fun h => hr (congrArg fst h)
    rw [if_neg hr, if_neg hne]
    rfl
  case pos =>
    rw [if_pos hr, find?, hr]
    cases q.byAccount.find? r.1
    case none => simp
    case some x =>
      simp only [map_some, bind_some, OrderedMap.find?_erase]
      by_cases hs : r'.2 = r.2
      case pos => rw [if_pos hs, if_pos (Prod.ext hr hs)]
      case neg => rw [if_neg hs, if_neg fun h => hs (congrArg snd h)]

theorem byFee_modify (q : TxQ A T ρ) : (q.modify r f).byFee = q.byFee := rfl

theorem byFee_modifyAccount (q : TxQ A T ρ) : (q.modifyAccount a g).byFee = q.byFee := rfl

theorem byFee_erase (q : TxQ A T ρ) : (q.erase r).byFee = q.byFee.erase r := rfl

theorem feeLevel_eq (h : q.find? r = some c) : q.feeLevel r = c.feeLevel := by
  rw [feeLevel, h]
  rfl

theorem feeLevel_erase (h : r' ≠ r) : (q.erase r).feeLevel r' = q.feeLevel r' := by
  rw [feeLevel, find?_erase, if_neg h]
  rfl

-- A change that leaves the fee level and the key of a transaction as they are.
structure Retains (q : TxQ A T ρ) (r : A × SeqProxy) (f : MaybeTx A T ρ → MaybeTx A T ρ) : Prop
    where
  feeLevel : ∀ c, q.find? r = some c → (f c).feeLevel = c.feeLevel
  account  : ∀ c, q.find? r = some c → (f c).account = c.account
  seqProxy : ∀ c, q.find? r = some c → (f c).seqProxy = c.seqProxy

theorem Retains.feeLevel_modify (h : Retains q r f) :
    (q.modify r f).feeLevel r' = q.feeLevel r' := by
  unfold TxQ.feeLevel
  rw [find?_modify]
  split
  case isTrue hr =>
    rw [hr]
    cases hc : q.find? r
    case none => rfl
    case some c => exact h.feeLevel c hc
  case isFalse => rfl

namespace Agree

theorem modify (h : Agree q) (hf : Retains q r f) : Agree (q.modify r f) where
  mem r' := by
    rw [byFee_modify, h.mem, find?_modify]
    split
    case isTrue hr => rw [hr, isSome_map]
    case isFalse => rfl
  nodup := h.nodup
  sorted := h.sorted.imp fun hab => by
    rw [hf.feeLevel_modify, hf.feeLevel_modify]
    exact hab
  keyed r' c' hc' := by
    rw [find?_modify] at hc'
    split at hc'
    case isTrue hr =>
      have ⟨c, hc, hc'⟩ := map_eq_some_iff.mp hc'
      have ⟨ha, hs⟩ := h.keyed r c hc
      rw [hr, ← hc', hf.account c hc, hf.seqProxy c hc]
      exact ⟨ha, hs⟩
    case isFalse => exact h.keyed r' c' hc'

theorem modifyAccount (h : Agree q) (hg : ∀ x, (g x).transactions = x.transactions) :
    Agree (q.modifyAccount a g) where
  mem r' := by
    rw [byFee_modifyAccount, h.mem, find?_modifyAccount q hg]
  nodup := h.nodup
  sorted := h.sorted.imp fun hab => by
    rw [feeLevel, feeLevel, find?_modifyAccount q hg, find?_modifyAccount q hg]
    exact hab
  keyed r' c' hc' := h.keyed r' c' (find?_modifyAccount q hg ▸ hc')

theorem erase (h : Agree q) (r : A × SeqProxy) : Agree (q.erase r) where
  mem r' := by
    rw [byFee_erase, h.nodup.mem_erase_iff, h.mem, find?_erase]
    split
    case isTrue hr => simp [hr]
    case isFalse hr => simp [hr]
  nodup := h.nodup.erase r
  sorted := by
    refine (h.sorted.sublist erase_sublist).imp_of_mem fun ha hb hab => ?_
    rw [feeLevel_erase (h.nodup.mem_erase_iff.mp hb).1,
      feeLevel_erase (h.nodup.mem_erase_iff.mp ha).1]
    exact hab
  keyed r' c' hc' := by
    rw [find?_erase] at hc'
    have ⟨_, hc'⟩ := Option.ite_none_left_eq_some.mp hc'
    exact h.keyed r' c' hc'

theorem exists_find? (h : Agree q) (hr : r ∈ q.byFee) : ∃ account c,
    q.byAccount.find? r.1 = some account ∧ account.transactions.find? r.2 = some c ∧
    q.find? r = some c := by
  have ⟨c, hc⟩ := isSome_iff_exists.mp ((h.mem r).mp hr)
  have ⟨account, ha, hc'⟩ := bind_eq_some_iff.mp hc
  exact ⟨account, c, ha, hc', hc⟩

theorem feeLevel_le (h : Agree q) (hr : r' ∈ Position.from q.byFee r) :
    q.feeLevel r' ≤ q.feeLevel r := by
  have hs := h.sorted.sublist (from_sublist q.byFee r)
  by_cases hm : r ∈ q.byFee
  case pos =>
    have ⟨t, ht⟩ := exists_from hm
    rw [ht] at hs hr
    obtain rfl | hr := mem_cons.mp hr
    case inl => exact UInt64.le_refl _
    case inr => exact (pairwise_cons.mp hs).1 r' hr
  case neg =>
    have he := from_eq_nil hm
    rw [he] at hr
    cases hr

end Agree

theorem Agree.ofSetup (setup : Setup) : Agree (.ofSetup setup : TxQ A T ρ) where
  mem _ := ⟨nofun, nofun⟩
  nodup := .nil
  sorted := .nil
  keyed _ _ h := nomatch h

theorem find?_add (q : TxQ A T ρ) (c : MaybeTx A T ρ) (r : A × SeqProxy) :
    (q.add c).find? r = if r = (c.account, c.seqProxy) then some c else q.find? r := by
  unfold find? add
  rw [find?_insert]
  by_cases hr : r.1 = c.account
  case neg =>
    have hne : r ≠ (c.account, c.seqProxy) := fun h => hr (congrArg fst h)
    rw [if_neg hr, if_neg hne]
  rw [if_pos hr, bind_some, find?_insert]
  by_cases hs : r.2 = c.seqProxy
  case pos => rw [if_pos hs, if_pos (Prod.ext hr hs)]
  rw [if_neg hs, if_neg fun h => hs (congrArg snd h), hr]
  cases q.byAccount.find? c.account
  case none => rfl
  case some => rfl

theorem perm_insertByFee (q : TxQ A T ρ) (r : A × SeqProxy) (level : FeeLevel64) :
    (q.insertByFee r level).Perm (r :: q.byFee) := by
  have h : (q.insertByFee r level).Perm _ := perm_middle
  rwa [takeWhile_append_dropWhile] at h

theorem mem_dropWhile_feeLevel (h : Agree q)
    (hr : r ∈ q.byFee.dropWhile fun r' => level ≤ q.feeLevel r') : q.feeLevel r < level := by
  have hs := h.sorted.sublist
    (dropWhile_suffix fun r' => decide (level ≤ q.feeLevel r')).sublist
  cases hd : q.byFee.dropWhile fun r' => decide (level ≤ q.feeLevel r')
  case nil =>
    rw [hd] at hr
    cases hr
  case cons r' t =>
    have hr' : q.feeLevel r' < level := by
      have := head?_dropWhile_not (fun r' => decide (level ≤ q.feeLevel r')) q.byFee
      rw [hd] at this
      simpa using this
    rw [hd] at hr hs
    obtain rfl | hr := mem_cons.mp hr
    case inl => exact hr'
    case inr => exact UInt64.lt_of_le_of_lt ((pairwise_cons.mp hs).1 r hr) hr'

theorem Agree.add (h : Agree q) (hc : q.find? (c.account, c.seqProxy) = none) :
    Agree (q.add c) := by
  have hperm : (q.add c).byFee.Perm ((c.account, c.seqProxy) :: q.byFee) := perm_insertByFee ..
  have hnew : (c.account, c.seqProxy) ∉ q.byFee := by
    rw [h.mem, hc]
    exact Bool.false_ne_true
  have hself : (q.add c).feeLevel (c.account, c.seqProxy) = c.feeLevel :=
    feeLevel_eq (by rw [find?_add, if_pos rfl])
  have hold : ∀ r ∈ q.byFee, (q.add c).feeLevel r = q.feeLevel r := fun r hr => by
    have hne : r ≠ (c.account, c.seqProxy) := fun he => hnew (he ▸ hr)
    rw [feeLevel, find?_add, if_neg hne]
    rfl
  refine ⟨fun r => ?_, hperm.nodup_iff.mpr (nodup_cons.mpr ⟨hnew, h.nodup⟩), ?_, fun r c' hc' => ?_⟩
  case refine_1 =>
    rw [hperm.mem_iff, mem_cons, h.mem, find?_add]
    split
    case isTrue he => simp [he]
    case isFalse he => simp [he]
  case refine_2 =>
    -- The new entry stands behind those that pay no less, and before those that pay less.
    have hs := h.sorted
    have hsub := takeWhile_append_dropWhile
      (p := fun r' => decide (c.feeLevel ≤ q.feeLevel r')) (l := q.byFee)
    rw [← hsub, pairwise_append] at hs
    have hl : ∀ r ∈ q.byFee.takeWhile (fun r' => decide (c.feeLevel ≤ q.feeLevel r')),
        r ∈ q.byFee := fun r hr => hsub ▸ mem_append_left _ hr
    have hr : ∀ r ∈ q.byFee.dropWhile (fun r' => decide (c.feeLevel ≤ q.feeLevel r')),
        r ∈ q.byFee := fun r hr => hsub ▸ mem_append_right _ hr
    refine pairwise_append.mpr ⟨?_, pairwise_cons.mpr ⟨fun r' h' => ?_, ?_⟩, ?_⟩
    · refine hs.1.imp_of_mem fun ha hb hab => ?_
      rw [hold _ (hl _ ha), hold _ (hl _ hb)]
      exact hab
    · rw [hself, hold _ (hr r' h')]
      exact UInt64.le_of_lt (mem_dropWhile_feeLevel h h')
    · refine hs.2.1.imp_of_mem fun ha hb hab => ?_
      rw [hold _ (hr _ ha), hold _ (hr _ hb)]
      exact hab
    · intro r₁ h₁ r₂ h₂
      rw [hold _ (hl _ h₁)]
      obtain rfl | h₂ := mem_cons.mp h₂
      case inl =>
        rw [hself]
        simpa using mem_takeWhile_imp h₁
      case inr =>
        rw [hold _ (hr _ h₂)]
        exact hs.2.2 r₁ h₁ r₂ h₂
  case refine_3 =>
    rw [find?_add] at hc'
    split at hc'
    case isTrue he =>
      cases hc'
      exact ⟨(congrArg fst he).symm, (congrArg snd he).symm⟩
    case isFalse => exact h.keyed r c' hc'

-- The next transaction of an account.
def accountNext (q : TxQ A T ρ) (r : A × SeqProxy) : Option (A × SeqProxy) :=
  (q.byAccount.find? r.1).bind fun a =>
    (a.transactions.firstAbove r.2 fun _ => true).map fun s => (r.1, s)

theorem Agree.accountNext (h : Agree q) (hn : q.accountNext r = some r') :
    r'.1 = r.1 ∧ r.2 < r'.2 ∧ r' ∈ q.byFee := by
  have ⟨account, ha, hn⟩ := bind_eq_some_iff.mp hn
  have ⟨s, hs, hn⟩ := map_eq_some_iff.mp hn
  have ⟨hlt, ⟨c, hc, _⟩, _⟩ := firstAbove_eq_some hs
  subst hn
  refine ⟨rfl, hlt, (h.mem _).mpr ?_⟩
  rw [find?, ha, bind_some, hc]
  rfl

theorem eraseAndAdvance_snd (q : TxQ A T ρ) (r : A × SeqProxy) :
    (q.eraseAndAdvance r).2 = q.next r ∨
      ∃ n, (q.eraseAndAdvance r).2 = some n ∧ q.accountNext r = some n ∧
        ∀ m, q.next r = some m → q.feeLevel m < q.feeLevel n := by
  have heq : (q.eraseAndAdvance r).2 =
      if (q.accountNext r).any fun n => (q.next r).all fun m => q.feeLevel m < q.feeLevel n then
        q.accountNext r
      else q.next r := rfl
  rw [heq]
  split
  case isFalse => exact .inl rfl
  case isTrue huse =>
    cases hn : q.accountNext r
    case none =>
      rw [hn] at huse
      cases huse
    case some n =>
      rw [hn] at huse
      refine .inr ⟨n, rfl, rfl, fun m hm => ?_⟩
      rw [hm] at huse
      simpa using huse

theorem Agree.eraseAndAdvance_mem (h : Agree q) (hn : (q.eraseAndAdvance r).2 = some r') :
    r' ∈ (q.eraseAndAdvance r).1.byFee := by
  have hm : r' ≠ r ∧ r' ∈ q.byFee := by
    cases eraseAndAdvance_snd q r
    case inl heq =>
      rw [heq] at hn
      exact ⟨next_ne h.nodup hn, mem_of_next hn⟩
    case inr heq =>
      have ⟨n, heq, ha, _⟩ := heq
      cases heq.symm.trans hn
      have ⟨_, hlt, hm⟩ := h.accountNext ha
      exact ⟨fun he => absurd (congrArg snd he) hlt.ne', hm⟩
  exact h.nodup.mem_erase_iff.mpr hm

end TxQ
