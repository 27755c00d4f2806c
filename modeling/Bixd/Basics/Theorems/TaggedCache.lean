import Bixd.Basics.TaggedCache

open HashMap List

namespace TaggedCache

open Entry

variable {C K O : Type} [DecidableEq K] [DecidableEq O] {c c' : TaggedCache K O}
  {m : HashMap K (Entry O)} {e : Entry O} {k : K} {o data : O}

-- The entry of a key tracks an object.
def Tracks (m : HashMap K (Entry O)) (k : K) (o : O) : Prop :=
  ∃ e, m.find? k = some e ∧ e.weakPtr = o

-- A strong pointer is to the object that the entry tracks.
def Sound (m : HashMap K (Entry O)) : Prop :=
  ∀ k e o, m.find? k = some e → e.ptr = some o → e.weakPtr = o

def strong (m : HashMap K (Entry O)) : Nat :=
  m.values.countP (·.isCached)

-- What a call does to the objects that are alive before and after it: it creates none, and an
-- entry that tracks one goes on tracking it.
structure Keeps (held : O → Nat) (c : TaggedCache K O) (held' : O → Nat) (c' : TaggedCache K O) :
    Prop where
  alive  : ∀ o, 0 < useCount held' c'.cache o → 0 < useCount held c.cache o
  tracks : ∀ k o, Tracks c.cache k o → 0 < useCount held' c'.cache o → Tracks c'.cache k o
  sound  : Sound c.cache → Sound c'.cache
  count  : c'.cacheCount - strong c'.cache = c.cacheCount - strong c.cache

theorem Keeps.refl : Keeps held c held c where
  alive _ h := h
  tracks _ _ h _ := h
  sound h := h
  count := rfl

theorem Keeps.trans (h₁ : Keeps held c held' c')
    (h₂ : Keeps held' c' held'' c'') : Keeps held c held'' c'' where
  alive o h := h₁.alive o (h₂.alive o h)
  tracks k o h a := h₂.tracks k o (h₁.tracks k o h (h₂.alive o a)) a
  sound h := h₂.sound (h₁.sound h)
  count := h₂.count.trans h₁.count

theorem useCount_insert (held : O → Nat) (o : O) (e' : Entry O) (h : m.find? key = some e) :
    useCount held (m.insert key e') o + (if e.ptr = some o then 1 else 0) =
      useCount held m o + (if e'.ptr = some o then 1 else 0) := by
  have := countP_insert (p := fun e => e.ptr = some o) e' h
  unfold useCount
  omega

theorem useCount_insert_of_none (h : m.find? key = none) :
    useCount held (m.insert key e) o = useCount held m o + (if e.ptr = some o then 1 else 0) := by
  rw [useCount, countP_insert_of_none h]
  exact (Nat.add_assoc ..).symm

theorem useCount_erase (held : O → Nat) (o : O) (h : m.find? key = some e) :
    useCount held (m.erase key) o + (if e.ptr = some o then 1 else 0) = useCount held m o := by
  have := countP_erase (p := fun e => e.ptr = some o) h
  unfold useCount
  omega

-- A call that replaces the entry of a key, with one for another object only when the object
-- of the old one is gone.
theorem Keeps.insert (hf : c.cache.find? key = some e) (hm : c'.cache = c.cache.insert key e')
    (hw : e'.weakPtr = e.weakPtr ∨ useCount held c.cache e.weakPtr = 0)
    (hs : ∀ o, e'.ptr = some o → e'.weakPtr = o)
    (ha : ∀ o, 0 < useCount held' c'.cache o → 0 < useCount held c.cache o)
    (hc : c'.cacheCount + (if e.isCached then 1 else 0 : Nat) =
      c.cacheCount + (if e'.isCached then 1 else 0 : Nat)) : Keeps held c held' c' where
  alive := ha
  tracks := by
    intro k o ⟨x, hx, hxo⟩ hlive
    rw [hm, Tracks]
    by_cases hk : k = key
    case pos =>
      subst hk
      cases hf.symm.trans hx
      refine ⟨e', by rw [find?_insert, if_pos rfl], ?_⟩
      cases hw
      case inl hw => exact hw.trans hxo
      case inr hw => exact absurd (hxo ▸ hw) (ha o hlive).ne'
    case neg => exact ⟨x, by rw [find?_insert, if_neg hk, hx], hxo⟩
  sound := by
    intro hsound k x o hx hptr
    rw [hm, find?_insert] at hx
    split at hx
    case isTrue =>
      cases hx
      exact hs o hptr
    case isFalse => exact hsound k x o hx hptr
  count := by
    have := countP_insert (p := fun e => e.isCached = true) e' hf
    rw [strong, strong, hm]
    omega

theorem Keeps.erase (hf : c.cache.find? key = some e) (hm : c'.cache = c.cache.erase key)
    (hw : useCount held' c'.cache e.weakPtr = 0)
    (ha : ∀ o, 0 < useCount held' c'.cache o → 0 < useCount held c.cache o)
    (hc : c'.cacheCount + (if e.isCached then 1 else 0 : Nat) = c.cacheCount) :
    Keeps held c held' c' where
  alive := ha
  tracks := by
    intro k o ⟨x, hx, hxo⟩ hlive
    have hk : k ≠ key := by
      intro hk
      subst hk
      cases hf.symm.trans hx
      exact absurd (hxo ▸ hw) hlive.ne'
    exact ⟨x, by rw [hm, find?_erase, if_neg hk, hx], hxo⟩
  sound := by
    intro hsound k x o hx hptr
    rw [hm, find?_erase] at hx
    have ⟨_, hx⟩ := Option.ite_none_left_eq_some.mp hx
    exact hsound k x o hx hptr
  count := by
    have := countP_erase (p := fun e => e.isCached = true) hf
    rw [strong, strong, hm]
    omega

theorem Keeps.add (hf : c.cache.find? key = none) (hd : 0 < held data)
    (hh : ∀ x, held' x ≤ held x + (if x = data then 1 else 0))
    (hm : c'.cache = c.cache.insert key (.new now data))
    (hc : c'.cacheCount = c.cacheCount + 1) : Keeps held c held' c' where
  alive := by
    intro x hx
    by_cases ho : x = data
    case pos => exact Nat.add_pos_left (ho ▸ hd) _
    have hle := hh x
    have hne : (Entry.new now data).ptr ≠ some x := fun h => ho (Option.some.inj h).symm
    rw [if_neg ho] at hle
    rw [hm, useCount_insert_of_none hf, if_neg hne] at hx
    exact Nat.lt_of_lt_of_le hx (Nat.add_le_add_right hle _)
  tracks := by
    intro k o ⟨x, hx, hxo⟩ _
    have hk : k ≠ key := by
      intro hk
      rw [hk, hf] at hx
      cases hx
    exact ⟨x, by rw [hm, find?_insert, if_neg hk, hx], hxo⟩
  sound := by
    intro hsound k x o hx hptr
    rw [hm, find?_insert] at hx
    split at hx
    case isTrue =>
      cases hx
      exact Option.some.inj hptr
    case isFalse => exact hsound k x o hx hptr
  count := by
    have hcached : (Entry.new now data).isCached = true := rfl
    rw [strong, strong, hm, countP_insert_of_none hf, hc, if_pos hcached]
    omega

omit [DecidableEq K] in

theorem lock_eq_some (h : lock held m e = some o) :
    e.weakPtr = o ∧ 0 < useCount held m o := by
  unfold lock isExpired at h
  have ⟨hn, h⟩ := Option.ite_none_left_eq_some.mp h
  cases h
  exact ⟨rfl, Nat.pos_of_ne_zero fun h => hn (decide_eq_true h)⟩

omit [DecidableEq K] in

theorem lock_eq_none (h : lock held m e = none) : useCount held m e.weakPtr = 0 := by
  unfold lock isExpired at h
  split at h
  case isTrue hz => exact of_decide_eq_true hz
  case isFalse => cases h

-- The visit of an entry by a sweep. What the sweep itself holds is not counted: it is gone when
-- the sweep is over.
theorem Sweep.keeps_visit {s : Sweep K O} {whenExpire : Int} (hsound : Sound s.cache.cache) :
    Keeps held s.cache held (s.visit held whenExpire key).cache := by
  unfold Sweep.visit
  dsimp only
  split
  case h_1 => exact .refl
  case h_2 entry hf =>
    split
    case h_1 hptr =>
      split
      case isTrue hexp =>
        have hz := of_decide_eq_true hexp
        have hw : useCount held (s.cache.cache.erase key) entry.weakPtr = 0 := by
          have := useCount_erase held entry.weakPtr hf
          unfold useCount at hz this ⊢
          unfold Sweep.holds at hz
          omega
        refine .erase hf rfl hw (fun o h => ?_) ?_
        case refine_1 =>
          have := useCount_erase held o hf
          dsimp only at h
          omega
        case refine_2 => simp [isCached, hptr]
      case isFalse => exact .refl
    case h_2 ptr hptr =>
      have hweak := hsound key entry ptr hf hptr
      split
      case isTrue =>
        split
        case isTrue hone =>
          have hw : useCount held (s.cache.cache.erase key) entry.weakPtr = 0 := by
            have := useCount_erase held entry.weakPtr hf
            rw [if_pos (hptr.trans (congrArg _ hweak.symm))] at this
            unfold useCount at hone this ⊢
            unfold Sweep.holds at hone
            rw [hweak] at this ⊢
            omega
          refine .erase hf rfl hw (fun o h => ?_) ?_
          case refine_1 =>
            have := useCount_erase held o hf
            dsimp only at h
            omega
          case refine_2 => simp [isCached, hptr]
        case isFalse =>
          refine .insert hf rfl (.inl rfl) (nofun) (fun o h => ?_) ?_
          case refine_1 =>
            have := useCount_insert held o entry.reset hf
            rw [if_neg (show entry.reset.ptr ≠ some o by simp [reset])] at this
            dsimp only at h
            omega
          case refine_2 => simp [isCached, reset, hptr]
      case isFalse => exact .refl

theorem Sweep.keeps_foldl {s : Sweep K O} {whenExpire : Int} {order : List K}
    (hsound : Sound s.cache.cache) :
    Keeps held s.cache held (order.foldl (Sweep.visit held whenExpire) s).cache := by
  induction order generalizing s
  case nil => exact .refl
  case cons key order hi =>
    have h : Keeps held s.cache held (s.visit held whenExpire key).cache := keeps_visit hsound
    exact h.trans (hi (h.sound hsound))

theorem keeps_sweep (hsound : Sound c.cache) : Keeps held c held (c.sweep held now order) := by
  have h : Sound (⟨c, []⟩ : Sweep K O).cache.cache := hsound
  exact Sweep.keeps_foldl h

omit [DecidableEq O] in

theorem tracks_insert (hw : e.weakPtr = o) : Tracks (m.insert key e) key o :=
  ⟨e, by rw [find?_insert, if_pos rfl], hw⟩

theorem Keeps.touch (hsound : Sound c.cache) (hf : c.cache.find? key = some e)
    (hptr : e.ptr = some o) (hh : ∀ x, held' x ≤ held x + (if x = o then 1 else 0))
    (hm : c'.cache = c.cache.insert key (e.touch now)) (hc : c'.cacheCount = c.cacheCount) :
    Keeps held c held' c' := by
  have hpos : 0 < useCount held c.cache o :=
    Nat.add_pos_right _ (countP_pos_of_find? hf hptr)
  refine .insert hf hm (.inl rfl) (fun x hx => hsound key e x hf hx) (fun x hx => ?_) ?_
  case refine_1 =>
    have hins : useCount held' (c.cache.insert key (e.touch now)) x = useCount held' c.cache x := by
      have := useCount_insert held' x (e.touch now) hf
      exact Nat.add_right_cancel this
    have hle := hh x
    rw [hm, hins] at hx
    by_cases ho : x = o
    case pos => exact ho ▸ hpos
    case neg =>
      rw [if_neg ho] at hle
      exact Nat.lt_of_lt_of_le hx (Nat.add_le_add_right hle _)
  case refine_2 =>
    rw [hc]
    rfl

section

variable {key : K} (hf : c.cache.find? key = some e) (hptr : e.ptr = none)

include hf hptr

-- A call that makes a weak entry strong, for its own object or for one that takes the place of
-- an object that is gone.
theorem Keeps.hold (hw : e.weakPtr = o ∨ useCount held c.cache e.weakPtr = 0)
    (hpos : 0 < useCount held c.cache o) (hh : ∀ x, held' x ≤ held x + (if x = o then 1 else 0))
    (hm : c'.cache = c.cache.insert key ⟨some o, o, now⟩) (hc : c'.cacheCount = c.cacheCount + 1) :
    Keeps held c held' c' := by
  refine .insert hf hm (hw.imp_left Eq.symm) (fun x hx => Option.some.inj hx) (fun x hx => ?_) ?_
  case refine_1 =>
    by_cases ho : x = o
    case pos => exact ho ▸ hpos
    have hins := useCount_insert held' x ⟨some o, o, now⟩ hf
    have hle := hh x
    have hne : some o ≠ some x := fun h => ho (Option.some.inj h).symm
    rw [if_neg hne, hptr, if_neg (by simp)] at hins
    rw [if_neg ho] at hle
    rw [hm, ← Nat.add_zero (useCount ..), hins] at hx
    exact Nat.lt_of_lt_of_le hx (Nat.add_le_add_right hle _)
  case refine_2 => simp [isCached, hptr, hc]

theorem Keeps.revive (hl : lock held c.cache e = some o)
    (hh : ∀ x, held' x ≤ held x + (if x = o then 1 else 0))
    (hm : c'.cache = c.cache.insert key ⟨some o, e.weakPtr, now⟩)
    (hc : c'.cacheCount = c.cacheCount + 1) : Keeps held c held' c' := by
  have ⟨hw, hpos⟩ := lock_eq_some hl
  rw [hw] at hm
  exact .hold hf hptr (.inl hw) hpos hh hm hc

theorem Keeps.forget (hz : useCount held c.cache e.weakPtr = 0)
    (hm : c'.cache = c.cache.erase key) (hc : c'.cacheCount = c.cacheCount) :
    Keeps held c held c' := by
  have hle : ∀ o, useCount held (c.cache.erase key) o = useCount held c.cache o := by
    intro o
    have := useCount_erase held o hf
    rwa [hptr, if_neg (by simp)] at this
  refine .erase hf hm ?_ (fun o h => ?_) ?_
  case refine_1 => rw [hm, hle, hz]
  case refine_2 => rwa [hm, hle] at h
  case refine_3 => simp [isCached, hptr, hc]

end

theorem fetch_some (hsound : Sound c.cache) (h : (c.fetch held now key).1 = some o)
    (hh : ∀ x, held' x ≤ held x + (if x = o then 1 else 0)) :
    Keeps held c held' (c.fetch held now key).2 ∧ Tracks (c.fetch held now key).2.cache key o := by
  unfold fetch at h ⊢
  split at h
  case h_1 => cases h
  case h_2 entry hf =>
    dsimp only at h ⊢
    split at h
    case h_1 ptr hptr =>
      cases h
      exact ⟨.touch hsound hf hptr hh rfl rfl, tracks_insert (hsound key entry o hf hptr)⟩
    case h_2 hptr =>
      split at h
      case h_1 ptr hl =>
        cases h
        exact ⟨.revive hf hptr hl hh rfl rfl, tracks_insert (lock_eq_some hl).1⟩
      case h_2 => cases h

theorem fetch_none (h : (c.fetch held now key).1 = none) :
    Keeps held c held (c.fetch held now key).2 := by
  unfold fetch at h ⊢
  split at h
  case h_1 => exact ⟨fun _ h => h, fun _ _ h _ => h, fun h => h, rfl⟩
  case h_2 entry hf =>
    dsimp only at h ⊢
    split at h
    case h_1 => cases h
    case h_2 hptr =>
      split at h
      case h_1 => cases h
      case h_2 hl => exact .forget hf hptr (lock_eq_none hl) rfl rfl

theorem keeps_refreshIfPresent (hsound : Sound c.cache) :
    Keeps held c held (c.refreshIfPresent held now key).2 := by
  have hh : ∀ o x, held x ≤ held x + (if x = o then 1 else 0) := fun _ _ => Nat.le_add_right ..
  unfold refreshIfPresent
  split
  case h_1 => exact .refl
  case h_2 entry hf =>
    split
    case h_1 hptr =>
      split
      case h_1 ptr hl => exact .revive hf hptr hl (hh ptr) rfl rfl
      case h_2 hl => exact .forget hf hptr (lock_eq_none hl) rfl rfl
    case h_2 ptr hptr => exact .touch hsound hf hptr (hh ptr) rfl rfl

theorem Keeps.reset (hf : c.cache.find? key = some e) (hptr : e.isCached)
    (hm : c'.cache = c.cache.insert key e.reset) (hc : c'.cacheCount = c.cacheCount - 1) :
    Keeps held c held c' := by
  refine .insert hf hm (.inl rfl) (nofun) (fun o h => ?_) ?_
  case refine_1 =>
    have := useCount_insert held o e.reset hf
    rw [if_neg (show e.reset.ptr ≠ some o by simp [Entry.reset])] at this
    rw [hm] at h
    omega
  case refine_2 =>
    rw [hc, if_pos hptr]
    simp [isCached, Entry.reset]

theorem keeps_del : Keeps held c held (c.del held key true).2 := by
  unfold del
  split
  case h_1 => exact .refl
  case h_2 entry hf =>
    -- After a reset the entry is still there, and it is erased when its object has gone.
    by_cases hc : entry.isCached
    case pos =>
      let c₁ : TaggedCache K O :=
        { c with cache := c.cache.insert key entry.reset, cacheCount := c.cacheCount - 1 }
      have h₁ : Keeps held c held c₁ := .reset hf hc rfl rfl
      have hf₁ : c₁.cache.find? key = some entry.reset := by
        rw [find?_insert, if_pos rfl]
      simp only [if_pos hc]
      split
      case isTrue hexp => exact h₁.trans (.forget hf₁ rfl (of_decide_eq_true hexp) rfl rfl)
      case isFalse => exact h₁
    case neg =>
      have hptr : entry.ptr = none := by simpa [isCached] using hc
      simp only [if_neg hc]
      split
      case isTrue hexp => exact .forget hf hptr (of_decide_eq_true hexp) rfl rfl
      case isFalse => exact .refl

theorem keeps_canonicalize (hsound : Sound c.cache) (hd : 0 < held data)
    (h : c.canonicalizeReplaceClient held now key data = (b, o, c'))
    (hh : ∀ x, held' x ≤ held x + (if x = o then 1 else 0)) :
    Keeps held c held' c' ∧ Tracks c'.cache key o := by
  unfold canonicalizeReplaceClient canonicalize at h
  split at h
  case h_1 hf =>
    cases h
    exact ⟨.add hf hd hh rfl rfl, tracks_insert rfl⟩
  case h_2 entry hf =>
    dsimp only at h
    split at h
    case h_1 ptr hptr =>
      cases h
      exact ⟨.touch hsound hf hptr hh rfl rfl, tracks_insert (hsound key entry o hf hptr)⟩
    case h_2 hptr =>
      split at h
      case h_1 ptr hl =>
        cases h
        exact ⟨.revive hf hptr hl hh rfl rfl, tracks_insert (lock_eq_some hl).1⟩
      case h_2 hl =>
        cases h
        have hpos : 0 < useCount held c.cache o := Nat.add_pos_left hd _
        exact ⟨.hold hf hptr (.inr (lock_eq_none hl)) hpos hh rfl rfl, tracks_insert rfl⟩

theorem fetch_eq (hsound : Sound c.cache) (ht : Tracks c.cache key o)
    (hpos : 0 < useCount held c.cache o) : (c.fetch held now key).1 = some o := by
  have ⟨e, hf, hw⟩ := ht
  unfold fetch
  rw [hf]
  dsimp only
  split
  case h_1 ptr hptr => exact congrArg some ((hsound key e ptr hf hptr).symm.trans hw)
  split
  case h_1 ptr hl => exact congrArg some ((lock_eq_some hl).1.symm.trans hw)
  case h_2 hl => exact absurd (hw ▸ lock_eq_none hl) hpos.ne'

theorem canonicalize_eq (hsound : Sound c.cache) (ht : Tracks c.cache key o)
    (hpos : 0 < useCount held c.cache o) :
    (c.canonicalizeReplaceClient held now key data).2.1 = o := by
  have ⟨e, hf, hw⟩ := ht
  unfold canonicalizeReplaceClient canonicalize
  rw [hf]
  dsimp only
  split
  case h_1 ptr hptr => exact (hsound key e ptr hf hptr).symm.trans hw
  split
  case h_1 ptr hl => exact (lock_eq_some hl).1.symm.trans hw
  case h_2 hl => exact absurd (hw ▸ lock_eq_none hl) hpos.ne'

namespace World

variable [DecidableEq C] {w w' : World C K O} {cl : C} {size expiration : Nat}

structure Inv (w : World C K O) : Prop where
  sound     : Sound w.cache.cache
  count     : w.cache.cacheCount = strong w.cache.cache
  canonical : ∀ cl k o, (cl, k, o) ∈ w.got → 0 < useCount w.held w.cache.cache o →
    Tracks w.cache.cache k o

omit [DecidableEq C] in

theorem Inv.keeps (i : Inv w) (h : Keeps w.held w.cache w'.held w'.cache)
    (hg : ∀ cl k o, (cl, k, o) ∈ w'.got → (cl, k, o) ∈ w.got ∨ Tracks w'.cache.cache k o) :
    Inv w' where
  sound := h.sound i.sound
  count := by
    have := h.count
    have := i.count
    omega
  canonical := by
    intro cl k o hgot hpos
    cases hg cl k o hgot
    case inl hgot => exact h.tracks k o (i.canonical cl k o hgot (h.alive o hpos)) hpos
    case inr ht => exact ht

section

variable {refs : List (C × O)}

omit [DecidableEq C] in

theorem heldBy_cons : heldBy ((cl, o) :: refs) x = heldBy refs x + (if x = o then 1 else 0) := by
  simp only [heldBy, countP_cons, decide_eq_true_eq, eq_comm (a := o)]

omit [DecidableEq C] in

theorem heldBy_pos (h : (cl, o) ∈ refs) : 0 < heldBy refs o :=
  countP_pos_iff.mpr ⟨(cl, o), h, decide_eq_true rfl⟩

theorem heldBy_erase_le : heldBy (refs.erase (cl, o)) x ≤ heldBy refs x :=
  erase_sublist.countP_le

end

omit [DecidableEq C] in

theorem Inv.refs (i : Inv w) {refs : List (C × O)}
    (h : ∀ x, 0 < heldBy refs x → 0 < heldBy w.refs x) : Inv { w with refs } := by
  refine i.keeps ⟨fun x hx => ?_, fun _ _ h _ => h, fun h => h, rfl⟩ fun _ _ _ h => .inl h
  have := h x
  unfold useCount held at hx ⊢
  dsimp only at hx ⊢
  omega

omit [DecidableEq C] in

theorem Inv.make (i : Inv w) (h : w.Fresh o) : Inv { w with refs := (cl, o) :: w.refs } where
  sound := i.sound
  count := i.count
  canonical := by
    intro cl' k x hgot hpos
    have hne : x ≠ o := fun hx => h.got cl' k (hx ▸ hgot)
    refine i.canonical cl' k x hgot ?_
    rwa [useCount, held, heldBy_cons, if_neg hne] at hpos

theorem Inv.canonicalize (i : Inv w) (h : (cl, o) ∈ w.refs) :
    Inv { w with
      cache := (w.canonicalize k o).2.2
      refs := (cl, (w.canonicalize k o).2.1) :: w.refs.erase (cl, o)
      got := (cl, k, (w.canonicalize k o).2.1) :: w.got } := by
  generalize hr : w.canonicalize k o = r
  have ⟨b, o', c'⟩ := r
  have hh : ∀ x, heldBy ((cl, o') :: w.refs.erase (cl, o)) x ≤
      heldBy w.refs x + (if x = o' then 1 else 0) := by
    intro x
    rw [heldBy_cons]
    exact Nat.add_le_add_right heldBy_erase_le _
  have ⟨hk, ht⟩ := keeps_canonicalize i.sound (heldBy_pos h) hr hh
  refine i.keeps hk fun cl' k' x hx => ?_
  cases hx
  case head => exact .inr ht
  case tail hx => exact .inl hx

theorem Inv.step (i : Inv w) (h : Step w w') : Inv w' := by
  cases h
  case make c o h => exact i.make h
  case copy c c' o h =>
    refine i.refs fun x hx => ?_
    rw [heldBy_cons] at hx
    by_cases ho : x = o
    case pos => exact ho ▸ heldBy_pos h
    case neg => rwa [if_neg ho] at hx
  case drop c o h => exact i.refs fun x hx => Nat.lt_of_lt_of_le hx heldBy_erase_le
  case canonicalize c k o h => exact i.canonicalize h
  case fetch c k o h =>
    have hh : ∀ x, heldBy ((c, o) :: w.refs) x ≤ heldBy w.refs x + (if x = o then 1 else 0) :=
      fun _ => heldBy_cons.le
    have ⟨hk, ht⟩ := fetch_some i.sound h hh
    refine i.keeps hk fun c' k' x hx => ?_
    cases hx
    case head => exact .inr ht
    case tail hx => exact .inl hx
  case miss k h => exact i.keeps (fetch_none h) fun _ _ _ h => .inl h
  case refreshIfPresent k => exact i.keeps (keeps_refreshIfPresent i.sound) fun _ _ _ h => .inl h
  case del k => exact i.keeps keeps_del fun _ _ _ h => .inl h
  case sweep order _ => exact i.keeps (keeps_sweep i.sound) fun _ _ _ h => .inl h
  case tick now _ => exact i.keeps .refl fun _ _ _ h => .inl h

theorem Run.inv (h : Run size expiration w) : Inv w := by
  induction h
  case new now =>
    exact {
      sound := nofun
      count := rfl
      canonical := nofun
    }
  case step hs hi => exact hi.step hs

-- As long as a client holds an object that the cache knows under a key, this object is what the
-- key stands for, and the counter of the cache is exact.
theorem Run.one_live_object (h : Run size expiration w) :
    (∀ cl k o, (cl, k, o) ∈ w.got → (cl, o) ∈ w.refs →
      (w.fetch k).1 = some o ∧ ∀ data, (w.canonicalize k data).2.1 = o) ∧
    (∀ cl cl' k o o', (cl, k, o) ∈ w.got → (cl, o) ∈ w.refs →
      (cl', k, o') ∈ w.got → (cl', o') ∈ w.refs → o = o') ∧
    w.cache.cacheCount = w.cache.cache.values.countP (·.isCached) := by
  have i := h.inv
  have hfetch : ∀ cl k o, (cl, k, o) ∈ w.got → (cl, o) ∈ w.refs →
      (w.fetch k).1 = some o ∧ ∀ data, (w.canonicalize k data).2.1 = o := by
    intro cl k o hgot href
    have hpos : 0 < useCount w.held w.cache.cache o := Nat.add_pos_left (heldBy_pos href) _
    have ht := i.canonical cl k o hgot hpos
    exact ⟨fetch_eq i.sound ht hpos, fun _ => canonicalize_eq i.sound ht hpos⟩
  refine ⟨hfetch, fun cl cl' k o o' hg hr hg' hr' => ?_, i.count⟩
  exact Option.some.inj ((hfetch cl k o hg hr).1.symm.trans (hfetch cl' k o' hg' hr').1)

-- A client gives object 1 to the cache, which then forgets it in a sweep.
theorem Run.one_live_object_swept : ∃ w : World Nat Nat Nat,
    Run 1 0 w ∧ w.cache.cacheCount = 0 ∧ (w.fetch 7).1 = some 1 := by
  have h₀ : Run 1 0 (⟨.new 1 0, 0, [], []⟩ : World Nat Nat Nat) := .new 0
  have hfresh : Fresh (⟨.new 1 0, 0, [], []⟩ : World Nat Nat Nat) 1 :=
    ⟨fun _ => not_mem_nil, fun _ _ => not_mem_nil, nofun⟩
  have h₁ := h₀.step (.make 4 1 hfresh)
  have h₂ := h₁.step (.canonicalize 4 7 1 mem_cons_self)
  have h₃ := h₂.step (.sweep [7] (Perm.refl _))
  have hgot := (h₃.one_live_object).1 4 7 1 mem_cons_self mem_cons_self
  exact ⟨_, h₃, by decide, hgot.1⟩

end World

end TaggedCache
