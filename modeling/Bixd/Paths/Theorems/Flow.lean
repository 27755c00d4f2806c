import Bixd.Paths.Flow

open List Option

set_option linter.unusedSectionVars false

namespace Flow

variable {T V B I O Q R : Type} [AddCommGroup I] [LinearOrder I] [AddCommGroup O] [LinearOrder O]
  [LinearOrder Q] [LinearOrder R] {L : Liquidity T V B I O Q R}
  {sortStrands offerCrossing partialPayment : Bool} {limitQuality : Option Q}
  {sendMax sendMaxST : Option I} {outReq : O} {strands : List T} {st st' : State T V I O R}
  {s : Search T B I O Q R} {p : Pass B I O R} {baseView : V} {i n : Nat}

-- What the variables of a pass say about the strands that it has evaluated so far.
structure Seen (L : Liquidity T V B I O Q R) (limitQuality : Option Q) (strands : List T)
    (st : State T V I O R) (s : Search T B I O Q R) (p : Pass B I O R) : Prop where
  ofrsToRm  : s.ofrsToRm = p.removed
  evaluated : ∀ r ∈ p.evaluated, ∃ strand ∈ strands, ∃ curTry i,
    r = L.flow curTry i st.sb strand st.remainingIn st.remainingOut
  unused    : s.best = none → p.used = none
  used      : ∀ best, s.best = some best → ∃ r, p.used = some r ∧ r ∈ p.evaluated ∧
    r.success = true ∧ r.sandbox = some best.sb ∧ r.in = best.in ∧ r.out = best.out ∧
    ∀ limit ∈ limitQuality, limit ≤ L.quality r.out r.in
  cur       : ∀ t ∈ s.active.cur, t ∈ strands
  next      : ∀ t ∈ s.active.next, t ∈ strands

theorem Seen.push (h : Seen L limitQuality strands st s p) (hs : strand ∈ strands) :
    ∀ t ∈ (s.active.push strand).next, t ∈ strands := by
  intro t ht
  cases mem_append.mp ht
  case inl ht => exact h.next t ht
  case inr ht => exact mem_singleton.mp ht ▸ hs

theorem Seen.visit (sortStrands offerCrossing : Bool) (i : Nat)
    (h : Seen L limitQuality strands st s p) (hs : strand ∈ strands) :
    ∃ p', Seen L limitQuality strands st
      (visit L sortStrands offerCrossing limitQuality st i strand s).1 p' := by
  unfold Flow.visit
  split
  case isTrue => exact ⟨p, h⟩
  dsimp only
  generalize hf : L.flow st.curTry i st.sb strand st.remainingIn st.remainingOut = f
  -- The strand adds its result to those evaluated, whether it is used or not.
  have hofrs : s.ofrsToRm ∪ f.ofrsToRm =
      (⟨p.evaluated ++ [f], p.used⟩ : Pass B I O R).removed := by
    rw [Pass.removed, foldl_append, h.ofrsToRm]
    rfl
  have hevaluated : ∀ r ∈ p.evaluated ++ [f], ∃ strand ∈ strands, ∃ curTry i,
      r = L.flow curTry i st.sb strand st.remainingIn st.remainingOut := by
    intro r hr
    cases mem_append.mp hr
    case inl hr => exact h.evaluated r hr
    case inr hr => exact ⟨strand, hs, st.curTry, i, (mem_singleton.mp hr).trans hf.symm⟩
  have hkeep : ∀ best, s.best = some best → ∃ r, p.used = some r ∧ r ∈ p.evaluated ++ [f] ∧
      r.success = true ∧ r.sandbox = some best.sb ∧ r.in = best.in ∧ r.out = best.out ∧
      ∀ limit ∈ limitQuality, limit ≤ L.quality r.out r.in := by
    intro best hbest
    have ⟨r, hu, hm, hrest⟩ := h.used best hbest
    exact ⟨r, hu, mem_append_left _ hm, hrest⟩
  have hskip : Seen L limitQuality strands st
      { s with
        ofrsToRm := s.ofrsToRm ∪ f.ofrsToRm
        offersConsidered := s.offersConsidered + f.ofrsUsed }
      ⟨p.evaluated ++ [f], p.used⟩ :=
    ⟨hofrs, hevaluated, h.unused, hkeep, h.cur, h.next⟩
  split
  case h_1 => exact ⟨_, hskip⟩
  case h_2 sandbox hsb =>
    split
    case isTrue => exact ⟨_, hskip⟩
    case isFalse hgood =>
      simp only [Bool.or_eq_true, Bool.not_eq_true', decide_eq_true_eq, not_or,
        Bool.not_eq_false] at hgood
      have hquality : ∀ limit ∈ limitQuality, limit ≤ L.quality f.out f.in := by
        intro limit hl
        have := hgood.2
        rw [mem_def.mp hl] at this
        simpa using this
      have hbest : ∀ best, some (⟨f.in, f.out, sandbox, L.quality f.out f.in⟩ :
          BestStrand B I O Q) = some best → ∃ r, some f = some r ∧ r ∈ p.evaluated ++ [f] ∧
          r.success = true ∧ r.sandbox = some best.sb ∧ r.in = best.in ∧ r.out = best.out ∧
          ∀ limit ∈ limitQuality, limit ≤ L.quality r.out r.in := by
        intro best hbest
        cases hbest
        exact ⟨f, rfl, mem_append_right _ (mem_singleton.mpr rfl), hgood.1.1, hsb,
          rfl, rfl, hquality⟩
      split
      case isTrue =>
        refine ⟨⟨p.evaluated ++ [f], some f⟩, hofrs, hevaluated, (nofun), hbest,
          ?_, fun t ht => ?_⟩
        case refine_1 =>
          split
          case isTrue => exact h.cur
          case isFalse => exact h.cur
        case refine_2 =>
          cases mem_append.mp ht
          case inl ht =>
            split at ht
            case isTrue => exact h.next t ht
            case isFalse => exact h.push hs t ht
          case inr ht =>
            have ht := mem_of_mem_drop ht
            split at ht
            case isTrue => exact h.cur t ht
            case isFalse => exact h.cur t ht
      case isFalse =>
        split
        case isTrue =>
          exact ⟨⟨p.evaluated ++ [f], some f⟩, hofrs, hevaluated, (nofun), hbest,
            h.cur, h.push hs⟩
        case isFalse =>
          exact ⟨⟨p.evaluated ++ [f], p.used⟩, hofrs, hevaluated, h.unused, hkeep, h.cur, h.push hs⟩

-- The search of a pass, by induction on the strands that are left.
theorem Seen.search (sortStrands offerCrossing : Bool) (i : Nat)
    (h : Seen L limitQuality strands st s p) (hs : ∀ t ∈ ts, t ∈ strands) :
    ∃ p', Seen L limitQuality strands st
      (search L sortStrands offerCrossing limitQuality st i ts s) p' := by
  induction ts generalizing i s p
  case nil => exact ⟨p, h⟩
  case cons t ts hi =>
    have ⟨p', h'⟩ := h.visit sortStrands offerCrossing i (hs t mem_cons_self)
    unfold search
    dsimp only
    split
    case isTrue => exact ⟨p', h'⟩
    case isFalse => exact hi (i + 1) h' fun t ht => hs t (mem_cons_of_mem _ ht)

theorem mem_activateNext {a : ActiveStrands T}
    (h : t ∈ (a.activateNext sortStrands bound limitQuality).cur) : t ∈ a.next := by
  unfold ActiveStrands.activateNext at h
  split at h
  case isTrue =>
    have ⟨e, he, ht⟩ := mem_map.mp h
    rw [mem_mergeSort] at he
    have ⟨u, hu, he⟩ := mem_filterMap.mp he
    split at he
    case h_1 => cases he
    have ⟨_, he⟩ := Option.ite_none_left_eq_some.mp he
    cases he
    exact ht ▸ hu
  case isFalse => exact h

-- What holds between the passes.
structure Inv (sendMax : Option I) (outReq : O) (strands : List T) (st : State T V I O R) :
    Prop where
  remainingOut : st.remainingOut = outReq - st.savedOuts.sum
  remainingIn : st.remainingIn = sendMax.map (· - st.savedIns.sum)
  next : ∀ t ∈ st.active.next, t ∈ strands

theorem Seen.valid (h : Seen L limitQuality strands st s p)
    (hi : Inv sendMax outReq strands st) :
    p.Valid L limitQuality sendMax outReq strands st.sb st.savedIns st.savedOuts where
  evaluated r hr := by
    have ⟨strand, hs, curTry, i, he⟩ := h.evaluated r hr
    refine ⟨strand, hs, curTry, i, ?_⟩
    rw [← hi.remainingIn, ← hi.remainingOut]
    exact he
  used r hr := by
    cases hbest : s.best
    case none => exact absurd (h.unused hbest) (mem_def.mp hr ▸ nofun)
    case some best =>
      have ⟨r', hu, hm, hsucc, hsb, _, _, hq⟩ := h.used best hbest
      cases hu.symm.trans (mem_def.mp hr)
      exact ⟨hm, hsucc, hsb ▸ rfl, hq⟩

theorem Respects.of_failed {r : FlowResult V I O R}
    (hp : Passes L limitQuality sendMax outReq strands baseView 0 0 ps sb ins outs)
    (ht : ps.length < 1000) (hr : r.sandbox = none) :
    Respects L offerCrossing limitQuality sendMax outReq baseView strands partialPayment r ps sb
      ins outs where
  passes := hp
  tries := ht
  failed _ := hr
  sandbox := hr ▸ nofun
  out_le := hr ▸ nofun
  in_le := hr ▸ nofun
  full := hr ▸ nofun
  consumed := hr ▸ nofun

theorem Inv.pass (hi : Inv sendMax outReq strands st)
    (hp : pass L sortStrands offerCrossing limitQuality sendMax outReq st = (st', shouldBreak)) :
    Inv sendMax outReq strands st' ∧ st'.curTry = st.curTry ∧
      ∃ p : Pass B I O R,
        p.Valid L limitQuality sendMax outReq strands st.sb st.savedIns st.savedOuts ∧
        st'.sb = p.run L st.sb ∧ st'.savedIns = p.ins + st.savedIns ∧
        st'.savedOuts = p.outs + st.savedOuts ∧
        st'.ofrsToRmOnFail = st.ofrsToRmOnFail ∪ p.removed := by
  unfold Flow.pass at hp
  generalize hact : st.active.activateNext sortStrands (L.qualityUpperBound st.sb) limitQuality
    = active at hp
  have hcur : ∀ t ∈ active.cur, t ∈ strands := fun t ht => hi.next t (mem_activateNext (hact ▸ ht))
  have hnext : ∀ t ∈ active.next, t ∈ strands := by
    intro t ht
    rw [← hact, ActiveStrands.activateNext] at ht
    split at ht
    case isTrue => cases ht
    case isFalse => cases ht
  have hstart : Seen L limitQuality strands st ⟨active, ∅, none, none, st.offersConsidered⟩
      (⟨[], none⟩ : Pass B I O R) := {
    ofrsToRm := rfl
    evaluated := nofun
    unused := fun _ => rfl
    used := nofun
    cur := hcur
    next := hnext
  }
  have ⟨p, hseen⟩ := hstart.search sortStrands offerCrossing 0 hcur
  dsimp only at hp
  have hvalid := hseen.valid hi
  split at hp
  case h_1 hbest =>
    cases hp
    have hu := hseen.unused hbest
    refine ⟨⟨hi.remainingOut, hi.remainingIn, hseen.next⟩, rfl, p, hvalid, ?_⟩
    simp only [Pass.run, Pass.ins, Pass.outs, hu, bind_none, elim_none, zero_add,
      hseen.ofrsToRm, and_self]
  case h_2 best hbest =>
    cases hp
    have ⟨r, hu, _, _, hsb, hin, hout, _⟩ := hseen.used best hbest
    refine ⟨?_, rfl, p, hvalid, ?_⟩
    case refine_1 =>
      exact {
        remainingOut := rfl
        remainingIn := by
          split
          case h_1 => exact hi.remainingIn
          case h_2 => rfl
        next := by
          dsimp only
          split
          case h_1 => exact hseen.next
          case h_2 => exact fun t ht => hseen.next t (mem_of_mem_eraseIdx ht)
      }
    case refine_2 =>
      simp only [Pass.run, Pass.ins, Pass.outs, hu, bind_some, elim_some, hsb, hin,
        hout, hseen.ofrsToRm, Multiset.singleton_add, and_self]

-- The fuel covers the tries that are left, so it does not run out. Tries run out only while some
-- of the input remains.
theorem Inv.passes (L : Liquidity T V B I O Q R) (sortStrands offerCrossing : Bool)
    (limitQuality : Option Q) (n : Nat)
    (hi : Inv sendMax outReq strands st) (ht : st.curTry < maxTries)
    (hn : maxTries ≤ n + st.curTry) :
    ∃ ps st', Passes L limitQuality sendMax outReq strands st.sb st.savedIns st.savedOuts ps
        st'.sb st'.savedIns st'.savedOuts ∧
      ps.length + st.curTry < maxTries ∧ Inv sendMax outReq strands st' ∧
      st'.ofrsToRmOnFail = removable st.ofrsToRmOnFail ps ∧
      (passes L sortStrands offerCrossing limitQuality sendMax outReq n st = some (.ok st') ∨
        passes L sortStrands offerCrossing limitQuality sendMax outReq n st =
          some (.error st') ∧ st'.remainingIn.all (0 < ·)) := by
  induction n generalizing st
  case zero => omega
  case succ n ih =>
    unfold passes
    split
    case isFalse => exact ⟨[], st, .nil, by simpa using ht, hi, rfl, .inl rfl⟩
    case isTrue hrem =>
      have hi' : Inv sendMax outReq strands { st with curTry := st.curTry + 1 } :=
        ⟨hi.remainingOut, hi.remainingIn, hi.next⟩
      dsimp only
      split
      case isTrue =>
        exact ⟨[], { st with curTry := st.curTry + 1 }, .nil, by simpa using ht, hi', rfl,
          .inr ⟨rfl, hrem.2⟩⟩
      case isFalse hlt =>
        cases hp : Flow.pass L sortStrands offerCrossing limitQuality sendMax outReq
          { st with curTry := st.curTry + 1 }
        case mk st' shouldBreak =>
          have ⟨hi', ht', p, hp, hsb, hins, houts, hofrs⟩ := hi'.pass hp
          dsimp only at ht' hp hsb hins houts hofrs ⊢
          split
          case isTrue =>
            refine ⟨[p], st', .cons hp ?_, ?_, hi', hofrs, .inl rfl⟩
            · rw [hsb, hins, houts]
              exact .nil
            · simp only [length_singleton]
              omega
          case isFalse =>
            have ⟨ps, st₂, hps, hlen, hi₂, hofrs₂, hr⟩ := ih hi' (by omega) (by omega)
            refine ⟨p :: ps, st₂, .cons hp ?_, ?_, hi₂, ?_, hr⟩
            · rw [← hsb, ← hins, ← houts]
              exact hps
            · rw [length_cons]
              omega
            · rw [hofrs₂, hofrs]
              rfl

theorem Inv.start : Inv (maxOf sendMaxST) outReq strands
    (start outReq baseView strands sendMaxST : State T V I O R) where
  remainingOut := (sub_zero outReq).symm
  remainingIn := by
    simp only [Flow.start, Multiset.sum_zero, sub_zero]
    exact map_id.symm ▸ rfl
  next _ ht := ht

theorem le_of_mem_maxOf (hm : m ∈ maxOf sendMaxST) : 0 ≤ m := by
  simpa using (mem_filter_iff.mp hm).2

section

variable [IsOrderedAddMonoid I] [IsOrderedAddMonoid O]

-- Each pass stays within what remains, so all of them together stay within the limits.
theorem Passes.within (hb : Bounded L)
    (h : Passes L limitQuality sendMax outReq strands sb ins outs ps sb' ins' outs')
    (ho : outs.sum ≤ outReq) (hi : ∀ m ∈ sendMax, ins.sum ≤ m) :
    outs'.sum ≤ outReq ∧ ∀ m ∈ sendMax, ins'.sum ≤ m := by
  induction h
  case nil => exact ⟨ho, hi⟩
  case cons _ _ _ _ _ _ _ p hp _ ih =>
    cases hu : p.used
    case none =>
      simp only [Pass.ins, Pass.outs, hu, elim_none, zero_add] at ih
      exact ih ho hi
    case some r =>
      simp only [Pass.ins, Pass.outs, hu, elim_some, Multiset.singleton_add,
        Multiset.sum_cons] at ih
      have ⟨hm, hsucc, _, _⟩ := hp.used r hu
      have ⟨strand, _, curTry, i, hr⟩ := hp.evaluated r hm
      rw [hr] at hsucc
      have ⟨hin, hout⟩ := hb _ _ _ _ _ _ hsucc
      rw [← hr] at hin hout
      refine ih (add_le_of_le_sub_right hout) fun m hm => add_le_of_le_sub_right (hin _ ?_)
      exact mem_map_of_mem (· - _) hm

end

theorem Inv.finish (hi : Inv sendMax outReq strands st)
    (hp : Passes L limitQuality sendMax outReq strands baseView 0 0 ps st.sb st.savedIns
      st.savedOuts)
    (ht : ps.length < 1000) (ho : st.savedOuts.sum ≤ outReq)
    (hm : ∀ m ∈ sendMax, st.savedIns.sum ≤ m) :
    Respects L offerCrossing limitQuality sendMax outReq baseView strands partialPayment
      (finish offerCrossing outReq partialPayment st) ps st.sb st.savedIns st.savedOuts := by
  unfold Flow.finish
  dsimp only
  split
  case isTrue hgt => exact absurd hgt (not_lt.mpr ho)
  split
  case isTrue => exact .of_failed hp ht rfl
  case isFalse hfull =>
    split
    case isTrue => exact .of_failed hp ht rfl
    split
    case isTrue => exact .of_failed hp ht rfl
    case isFalse hin =>
      exact {
        passes := hp
        tries := ht
        failed := fun h => absurd rfl h
        sandbox := fun v hv => ⟨(mem_some.mp hv).symm, rfl, rfl⟩
        out_le := fun _ => ho
        in_le := fun _ => hm
        full := fun _ hpart hcross => by
          by_contra hne
          exact hfull ⟨hne, hpart, hcross⟩
        consumed := fun _ hpart hcross m hm => by
          by_contra hne
          refine hin ⟨hcross, hpart, ?_⟩
          rw [hi.remainingIn, mem_def.mp hm]
          simpa [sub_eq_zero] using Ne.symm hne
      }

-- An offer that has to be crossed at once is crossed if the passes consume all of its input, and
-- only then.
theorem flow_fillOrKill (L : Liquidity T V B I O Q R) (sortStrands : Bool)
    (limitQuality : Option Q) (outReq : O) (baseView : V) (strands : List T) (hm : 0 ≤ m) :
    ∃ r ps sb ins outs,
      Passes L limitQuality (some m) outReq strands baseView 0 0 ps sb ins outs ∧
      ps.length < 1000 ∧
      flow L sortStrands true limitQuality outReq baseView strands false (some m) = some r ∧
      r.removableOffers = removable ∅ ps ∧
      (ins.sum = m ∧ outs.sum ≤ outReq →
        r.ter = tesSUCCESS ∧ r.in = ins.sum ∧ r.out = outs.sum ∧ r.sandbox = some sb) ∧
      (¬ (ins.sum = m ∧ outs.sum ≤ outReq) → r.ter ≠ tesSUCCESS) := by
  have hmax : maxOf (some m) = some m := by simpa [maxOf] using hm
  have hi : Inv (maxOf (some m)) outReq strands
    (start outReq baseView strands (some m) : State T V I O R) := .start
  have ⟨ps, st, hp, hlen, hi', hofrs, hr⟩ := hi.passes L sortStrands true limitQuality
    maxTries (by simp [start, maxTries]) (Nat.le_refl _)
  have hrem := hi'.remainingIn
  rw [hmax] at hp hr hrem
  rw [flow, hmax]
  cases hr
  case inr hr =>
    rw [hr.1]
    refine ⟨_, ps, st.sb, st.savedIns, st.savedOuts, hp, hlen, rfl, hofrs, fun h => ?_,
      fun _ => (by decide : telFAILED_PROCESSING ≠ tesSUCCESS)⟩
    -- Tries were left to use, with some of the input.
    have := hr.2
    rw [hrem, h.1] at this
    simp at this
  case inl hr =>
    rw [hr]
    refine ⟨_, ps, st.sb, st.savedIns, st.savedOuts, hp, hlen, rfl, ?_, ?_, ?_⟩
    case refine_1 =>
      dsimp only [finish]
      split
      · exact hofrs
      · split
        · exact hofrs
        · split
          · exact hofrs
          · split <;> exact hofrs
    case refine_2 =>
      intro h
      have hrem : st.remainingIn = some 0 := by rw [hrem, h.1]; simp
      simp [finish, hrem, not_lt.mpr h.2]
    case refine_3 =>
      intro h
      by_cases hout : outReq < st.savedOuts.sum
      case pos =>
        simp only [finish, gt_iff_lt, hout, if_true]
        decide
      have hne : m - st.savedIns.sum ≠ 0 := fun h0 => h ⟨(sub_eq_zero.mp h0).symm, not_lt.mp hout⟩
      simp [finish, hrem, hne, hout]
      decide

-- A single offer with a price that is left in part, on a view that is the amount left.
def oneOffer (price : Int) : Liquidity Unit Int Int Int Int Int Nat where
  flow _ _ left _ remainingIn remainingOut :=
    let out := min left remainingOut
    { success  := 0 < out ∧ remainingIn.all (price * out ≤ ·)
      «in»     := price * out
      out      := out
      sandbox  := some (left - out)
      ofrsToRm := ∅
      ofrsUsed := 1
      inactive := out = left }
  qualityUpperBound _ _ := some (100 / price)
  quality out paid := 100 * out / paid
  apply left _ := left
  offerDelete left _ := left

theorem oneOffer_bounded (price : Int) : Bounded (oneOffer price) := by
  intro curTry i left strand remainingIn remainingOut h
  simp only [oneOffer, decide_eq_true_eq] at h ⊢
  refine ⟨fun m hm => ?_, min_le_right _ _⟩
  have := h.2
  rw [mem_def.mp hm] at this
  simpa using this

end Flow
