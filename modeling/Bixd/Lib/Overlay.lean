import Bixd.Lib.OrderedMap

open List OrderedMap Function Finset

-- Maps from keys to values, and changes of some keys that are laid over them.
namespace Overlay

variable {K V : Type} {M : K → Option V} {d : K → Option (Option V)} {k n : K}

-- A key that is changed has a new value or none at all.
def overlay (d : K → Option (Option V)) (M : K → Option V) : K → Option V :=
  fun k => (d k).getD (M k)

theorem overlay_of_some (h : d k = some x) : overlay d M k = x := by
  rw [overlay, h, Option.getD_some]

theorem overlay_of_none (h : d k = none) : overlay d M k = M k := by
  rw [overlay, h, Option.getD_none]

section

variable [DecidableEq K]

theorem overlay_update (x : Option V) :
    overlay (update d k (some x)) M = update (overlay d M) k x := by
  funext n
  by_cases h : n = k
  case pos => subst h; simp [overlay]
  case neg => simp [overlay, h]

theorem overlay_forget (h : M k = x) :
    overlay (update d k none) M = update (overlay d M) k x := by
  funext n
  by_cases hn : n = k
  case pos => subst hn; simp [overlay, h]
  case neg => simp [overlay, hn]

end

-- Changes made one by one, to a state `v` of which `D` tells the values of the keys. `F` is what
-- has to hold of a key when it is changed.
theorem foldlM_update [DecidableEq K] {S I X ε : Type} {D : S → (K → X) → Prop}
    {f : S → K → I → Except ε S} {N : I → X} {F : K → I → X → Prop}
    (hf : ∀ {v g k i}, D v g → F k i (g k) → ∃ v', (f v k i = .ok v') ∧ D v' (update g k (N i)))
    {l : List (K × I)} (hl : (l.map Prod.fst).Nodup) {v : S} {g : K → X} (hd : D v g)
    (hF : ∀ k i, (k, i) ∈ l → F k i (g k)) :
    ∃ v' g', (l.foldlM (fun v e => f v e.1 e.2) v = .ok v') ∧ D v' g' ∧
      (∀ k i, (k, i) ∈ l → g' k = N i) ∧ ∀ k, k ∉ l.map Prod.fst → g' k = g k := by
  induction l generalizing v g
  case nil => exact ⟨v, g, rfl, hd, nofun, fun _ _ => rfl⟩
  case cons e l hi =>
    have ⟨k, i⟩ := e
    have ⟨hk, hl⟩ := nodup_cons.mp hl
    have ⟨v₁, hv₁, hd₁⟩ := hf hd (hF k i mem_cons_self)
    have ⟨v', g', hv', hd', hin, hout⟩ := hi hl hd₁ fun n j hn => by
      have hmem : n ∈ l.map Prod.fst := mem_map_of_mem hn
      have hne : n ≠ k := fun h => hk (h ▸ hmem)
      rw [update_of_ne hne]
      exact hF n j (mem_cons_of_mem _ hn)
    refine ⟨v', g', ?_, hd', fun n j hn => ?_, fun n hn => ?_⟩
    · rw [foldlM_cons, hv₁]; exact hv'
    · obtain hn | hn := mem_cons.mp hn
      case inl => cases hn; rw [hout k hk, update_self]
      case inr => exact hin n j hn
    · have ⟨hnk, hnl⟩ := not_or.mp (mem_cons.not.mp hn)
      rw [hout n hnl, update_of_ne hnk]

variable [LinearOrder K] {P Q : K → Prop} {last r : Option K}

-- `r` is the first key above `k`, and there is none if it is not below `last`. `P` says what the
-- keys are.
inductive IsSucc (P : K → Prop) (k : K) (last : Option K) : Option K → Prop
  | some {n : K} : k < n → P n → (∀ n', k < n' → n' < n → ¬ P n') → (∀ l, last = some l → n < l) →
    IsSucc P k last (some n)
  | none : (∀ n, k < n → P n → ∃ l, (last = some l) ∧ l ≤ n) → IsSucc P k last none

theorem IsSucc.congr (h : IsSucc P k last r) (hp : ∀ n, P n ↔ Q n) : IsSucc Q k last r := by
  have he : P = Q := funext fun n => propext (hp n)
  exact he ▸ h

theorem IsSucc.unique (h : IsSucc P k last r) (h' : IsSucc P k last r') : r = r' := by
  cases h
  case none h =>
    cases h'
    case none => rfl
    case some hk hp _ hl =>
      have ⟨l, hll, hle⟩ := h _ hk hp
      exact absurd (hl l hll) (not_lt.mpr hle)
  case some n hk hp hb hl =>
    cases h'
    case none h' =>
      have ⟨l, hll, hle⟩ := h' _ hk hp
      exact absurd (hl l hll) (not_lt.mpr hle)
    case some n' hk' hp' hb' _ =>
      have hle : n ≤ n' := not_lt.mp fun h => hb n' hk' h hp'
      have hge : n' ≤ n := not_lt.mp fun h => hb' n hk h hp
      rw [le_antisymm hle hge]

-- The successor is asked for again as long as it is a key that is erased.
def skip (succ : K → Option K) (erased : K → Bool) : Nat → K → Option K
  | 0, _     => none
  | n + 1, k =>
    match succ k with
    | none    => none
    | some k' => if erased k' then skip succ erased n k' else some k'

theorem skip_isSucc (es : Finset K) (hs : ∀ k, IsSucc P k last (succ k))
    (he : ∀ k, erased k → k ∈ es) (hm : (es.filter (k < ·)).card < m) :
    IsSucc (fun n => ¬ erased n ∧ P n) k last (skip succ erased m k) := by
  -- Each round goes to an erased key that is greater than the last one.
  induction m generalizing k
  case zero => exact absurd hm (Nat.not_lt_zero _)
  case succ m hi =>
    rw [skip]
    have h := hs k
    generalize succ k = r at h
    cases h
    case none h => exact .none fun n hn hp => h n hn hp.right
    case some n hk hp hb hl =>
      dsimp only
      split
      case isFalse hn => exact .some hk ⟨hn, hp⟩ (fun n' hk' hlt h => hb n' hk' hlt h.right) hl
      case isTrue hn =>
        have hlt : (es.filter (n < ·)).card < m := by
          refine Nat.lt_of_lt_of_le (card_lt_card ?_) (Nat.lt_succ_iff.mp hm)
          refine ssubset_iff_of_subset (fun x hx => ?_) |>.mpr ⟨n, ?_, ?_⟩
          · have hx := mem_filter.mp hx
            exact mem_filter.mpr ⟨hx.left, hk.trans hx.right⟩
          · exact mem_filter.mpr ⟨he n hn, hk⟩
          · exact fun h => lt_irrefl n (mem_filter.mp h).right
        have hgap (n' : K) (hk' : k < n') (hle : n' ≤ n) : ¬ (¬ erased n' ∧ P n') := by
          obtain rfl | hne := eq_or_ne n' n
          case inl => exact fun h => h.left hn
          case inr => exact fun h => hb n' hk' (lt_of_le_of_ne hle hne) h.right
        have hr := hi hlt
        generalize skip succ erased m n = r at hr
        cases hr
        case none h =>
          exact .none fun n' hk' hp' => h n' (not_le.mp fun hle => hgap n' hk' hle hp') hp'
        case some n₁ hk₁ hp₁ hb₁ hl₁ =>
          refine .some (hk.trans hk₁) hp₁ (fun n' hk' hlt' => ?_) hl₁
          by_cases hle : n' ≤ n
          case pos => exact hgap n' hk' hle
          case neg => exact hb₁ n' (not_le.mp hle) hlt'

theorem skip_map_isSucc {W : Type} (m : OrderedMap K W) (erased : W → Bool)
    (hs : ∀ k, IsSucc P k last (succ k)) (k : K) :
    IsSucc (fun n => ¬ (m.find? n).any erased ∧ P n) k last
      (skip succ (fun n => (m.find? n).any erased) (m.size + 1) k) := by
  refine skip_isSucc m.keys.toFinset hs (fun n hn => ?_) (Nat.lt_succ_iff.mpr ?_)
  · rw [mem_toFinset, OrderedMap.mem_keys]
    cases h : m.find? n
    case none => rw [h] at hn; cases hn
    case some => rfl
  · rw [← m.length_keys]
    exact (card_filter_le ..).trans (toFinset_card_le _)

-- The lower one of two keys, if it is below `last`.
def merge (next own last : Option K) : Option K :=
  below last (lower next own)
where
  lower : Option K → Option K → Option K
    | next, none => next
    | none, some k => some k
    | some next, some k => if k < next then some k else some next
  below : Option K → Option K → Option K
    | some last, some next => if last ≤ next then none else some next
    | _, next => next

theorem merge.lower_cases (a b : Option K) :
    (merge.lower a b = a) ∨ (merge.lower a b = b) := by
  cases a <;> cases b
  case some.some x y =>
    rw [lower]
    split
    case isTrue => exact .inr rfl
    case isFalse => exact .inl rfl
  case none.some => exact .inr rfl
  all_goals exact .inl rfl

theorem merge.lower_le {m : K} (h : (a = some m) ∨ (b = some m)) :
    ∃ x, (merge.lower a b = some x) ∧ x ≤ m := by
  cases a <;> cases b
  case none.none => obtain h | h := h <;> cases h
  case none.some y => exact ⟨y, rfl, (Option.some.inj (h.resolve_left nofun)).le⟩
  case some.none x => exact ⟨x, rfl, (Option.some.inj (h.resolve_right nofun)).le⟩
  case some.some x y =>
    rw [lower]
    split
    case isTrue hlt =>
      refine ⟨y, rfl, ?_⟩
      obtain h | h := h <;> cases h
      case inl => exact hlt.le
      case inr => exact le_rfl
    case isFalse hlt =>
      refine ⟨x, rfl, ?_⟩
      obtain h | h := h <;> cases h
      case inl => exact le_rfl
      case inr => exact not_lt.mp hlt

theorem merge.below_isSucc (hr : ∀ n, r = some n → k < n ∧ P n)
    (hp : ∀ n, k < n → P n → (∃ l, (last = some l) ∧ l ≤ n) ∨ ∃ m, (r = some m) ∧ m ≤ n) :
    IsSucc P k last (merge.below last r) := by
  cases r
  case none =>
    have h (n : K) (hk : k < n) (hn : P n) : ∃ l, (last = some l) ∧ l ≤ n :=
      (hp n hk hn).resolve_right nofun
    cases last <;> exact .none h
  case some m =>
    have ⟨hk, hm⟩ := hr m rfl
    have hb (hl : ∀ l, last = some l → m < l) (n' : K) (hk' : k < n') (hlt : n' < m) : ¬ P n' := by
      intro hn'
      obtain ⟨l, hll, hle⟩ | ⟨m', hm', hle⟩ := hp n' hk' hn'
      case inl => exact absurd (hle.trans_lt hlt) (not_lt.mpr (hl l hll).le)
      case inr => cases hm'; exact absurd hlt (not_lt.mpr hle)
    cases last
    case none => exact .some hk hm (hb nofun) nofun
    case some l =>
      rw [below]
      split
      case isFalse hl =>
        have hl' (l' : K) (h : some l = some l') : m < l' := Option.some.inj h ▸ not_le.mp hl
        exact .some hk hm (hb hl') hl'
      case isTrue hl =>
        refine .none fun n hkn hn => ⟨l, rfl, ?_⟩
        obtain ⟨l', hl', hle⟩ | ⟨m', hm', hle⟩ := hp n hkn hn
        case inl => cases hl'; exact hle
        case inr => cases hm'; exact hl.trans hle

theorem merge_isSucc {next : Option K} (hn : IsSucc P k last next) (ho : IsSucc Q k none own) :
    IsSucc (fun n => P n ∨ Q n) k last (merge next own last) := by
  have hq (n : K) (hk : k < n) (h : Q n) : ∃ m, (own = some m) ∧ m ≤ n := by
    cases ho
    case none ho => have ⟨_, hl, _⟩ := ho n hk h; cases hl
    case some m _ _ hb _ => exact ⟨m, rfl, not_lt.mp fun hlt => hb n hk hlt h⟩
  have hp (n : K) (hk : k < n) (h : P n) :
      (∃ l, (last = some l) ∧ l ≤ n) ∨ ∃ m, (next = some m) ∧ m ≤ n := by
    cases hn
    case none hn => exact .inl (hn n hk h)
    case some m _ _ hb _ => exact .inr ⟨m, rfl, not_lt.mp fun hlt => hb n hk hlt h⟩
  have hno (m : K) (h : own = some m) : k < m ∧ Q m := by
    subst h
    cases ho
    case some hk h _ _ => exact ⟨hk, h⟩
  have hnn (m : K) (h : next = some m) : k < m ∧ P m := by
    subst h
    cases hn
    case some hk h _ _ => exact ⟨hk, h⟩
  apply merge.below_isSucc
  · intro m hm
    obtain h | h := merge.lower_cases next own
    case inl => exact (hnn m (h ▸ hm)).imp_right .inl
    case inr => exact (hno m (h ▸ hm)).imp_right .inr
  · intro n hk h
    have hle {m : K} (hm : (next = some m) ∨ (own = some m)) (hle : m ≤ n) :
        ∃ x, (merge.lower next own = some x) ∧ x ≤ n := by
      have ⟨x, hx, hxm⟩ := merge.lower_le hm
      exact ⟨x, hx, hxm.trans hle⟩
    obtain h | h := h
    case inl =>
      obtain hl | ⟨m, hm, hmn⟩ := hp n hk h
      case inl => exact .inl hl
      case inr => exact .inr (hle (.inl hm) hmn)
    case inr =>
      have ⟨m, hm, hmn⟩ := hq n hk h
      exact .inr (hle (.inr hm) hmn)

theorem foldlM_map {S I X ε : Type} {D : S → (K → X) → Prop} {f : S → K → I → Except ε S}
    {N : I → X} {F : K → I → X → Prop}
    (hf : ∀ {v g k i}, D v g → F k i (g k) → ∃ v', (f v k i = .ok v') ∧ D v' (update g k (N i)))
    {m : OrderedMap K I} {v : S} {g : K → X} (hd : D v g)
    (hF : ∀ k i, m.find? k = some i → F k i (g k)) :
    ∃ v', (m.toList.foldlM (fun v e => f v e.1 e.2) v = .ok v') ∧
      D v' (fun k => ((m.find? k).map N).getD (g k)) := by
  have ⟨v', g', hv', hd', hin, hout⟩ := foldlM_update hf (m.keys_toList ▸ m.nodup_keys) hd
    fun k i h => hF k i (mem_toList.mp h)
  refine ⟨v', hv', ?_⟩
  have hg : g' = fun k => ((m.find? k).map N).getD (g k) := by
    funext k
    cases h : m.find? k
    case none =>
      refine hout k fun hk => ?_
      rw [m.keys_toList, OrderedMap.mem_keys, h] at hk
      cases hk
    case some i => exact hin k i (mem_toList.mpr h)
  exact hg ▸ hd'

theorem firstAbove_isSucc {m : OrderedMap K V} :
    IsSucc (fun n => ∃ v, (m.find? n = some v) ∧ p v) k none (m.firstAbove k p) := by
  cases h : m.firstAbove k p
  case none =>
    refine .none fun n hk ⟨v, hv, hp⟩ => ?_
    rw [firstAbove_eq_none.mp h n v hk hv] at hp
    cases hp
  case some n =>
    have ⟨hk, hn, hb⟩ := firstAbove_eq_some h
    refine .some hk hn (fun n' hk' hlt ⟨v, hv, hp⟩ => ?_) nofun
    rw [hb n' v hk' hlt hv] at hp
    cases hp

end Overlay
