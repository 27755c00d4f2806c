import Bixd.SHAMap.Theorems.Calls

namespace SHAMap

open SHAMap.Tree (RootWF Hashed)

theorem Denotes.readTree_eq (hd : Denotes h x t) (hp : t.Placed p) (hl : p.length ≤ 64)
    (hf : 65 ≤ fuel + p.length) : readTree h fuel x = t := by
  obtain _ | fuel := fuel
  · omega
  induction hd generalizing p fuel
  case empty => rfl
  case leaf hg => simp only [readTree, hg]
  case inner hg _ ih =>
    simp only [readTree, hg]
    have hlt := hp.left
    obtain _ | fuel := fuel
    · omega
    congr 1
    funext b
    exact ih b (hp.right b) (by simp; omega) fuel (by simp; omega)

variable [Digest] {sh : Prop} {ts : Fin 16 → Tree}

theorem Valid.tree_eq (v : Valid h m sh ts S) : m.tree h = .inner ts :=
  v.owned.denotes.readTree_eq v.placed (by simp [SHAMapNodeID.root]) (by simp [levels])

theorem Valid.getHash_eq (v : Valid h m True ts S) : (m.getHash h).1 = (Tree.inner ts).hash := by
  have ⟨_, _, hg, _⟩ := getHash_spec v.cowid v.owned v.placed
  rw [hg]

theorem empty_valid : Valid empty.2 empty.1 sh (fun _ => .empty) {0} where
  cowid := by decide
  owned := newInner_owned sh (by decide) rfl
  wf := ⟨fun _ => trivial⟩

-- Every call returns a valid map, since the id of the map never changes.
theorem foldlM_calls_valid (calls : List Call) (hc : m.cowid = 1) (hst : m.state = .modifying)
    (v : Valid h m True ts S) (ht : (Tree.inner ts).Typed ty) : ∃ m' h' ts' S',
      calls.foldlM (fun (m, h) c => do let (m, h, _) ← c.exec ty m h; pure (m, h)) (m, h) =
        Except.ok (m', h') ∧ Valid h' m' True ts' S' ∧ (Tree.inner ts').Typed ty := by
  induction calls generalizing m h ts S
  case nil => exact ⟨_, _, _, _, rfl, v, ht⟩
  case cons c calls ih =>
    obtain ⟨m₁, h₁, n, ts₁, S₁, he, ex, ht₁⟩ := exec_spec v (by simp [hst]) ty c (by simp [hst])
      (fun _ _ => by rw [hc]; decide)
    obtain ⟨m', h', ts', S', hr, hv⟩ := ih (ex.cowid.trans hc) (ex.state.trans hst) ex.valid (ht₁ ht)
    refine ⟨m', h', ts', S', ?_, hv⟩
    simp only [List.foldlM_cons, he]
    exact hr

theorem run_valid (ty : LeafType) (calls : List Call) :
    ∃ m h ts S, run ty calls = .ok (m, h) ∧ Valid h m True ts S ∧ (Tree.inner ts).Typed ty :=
  foldlM_calls_valid calls rfl rfl empty_valid (fun _ => trivial)

theorem getHash_history_independent (ty : LeafType) (calls₁ calls₂ : List Call) :
    ∃ m₁ h₁ m₂ h₂, run ty calls₁ = .ok (m₁, h₁) ∧ run ty calls₂ = .ok (m₂, h₂) ∧
      (∃ ts, m₁.tree h₁ = .inner ts ∧ RootWF ts) ∧
      ((∀ i, i ∈ m₁.items h₁ ↔ i ∈ m₂.items h₂) →
        m₁.tree h₁ = m₂.tree h₂ ∧ (m₁.getHash h₁).1 = (m₂.getHash h₂).1) ∧
      (Set.InjOn Hashed.hash ({.empty} ∪ (m₁.tree h₁).hashed ∪ (m₂.tree h₂).hashed) →
        (m₁.getHash h₁).1 = (m₂.getHash h₂).1 → ∀ i, i ∈ m₁.items h₁ ↔ i ∈ m₂.items h₂) := by
  have ⟨m₁, h₁, ts₁, S₁, hr₁, v₁, ht₁⟩ := run_valid ty calls₁
  have ⟨m₂, h₂, ts₂, S₂, hr₂, v₂, ht₂⟩ := run_valid ty calls₂
  refine ⟨m₁, h₁, m₂, h₂, hr₁, hr₂, ⟨ts₁, v₁.tree_eq, v₁.wf⟩, ?_⟩
  rw [items, items, v₁.tree_eq, v₂.tree_eq, v₁.getHash_eq, v₂.getHash_eq]
  constructor
  · intro hi
    rw [v₁.wf.ext v₂.wf ht₁ ht₂ hi]
    exact ⟨rfl, rfl⟩
  · intro hinj hh i
    rw [v₁.wf.eq_of_hash hinj ?_ v₂.wf ?_ ?_ hh]
    · exact .inl (.inl rfl)
    · exact fun _ hx => .inl (.inr hx)
    · exact fun _ hx => .inr hx

end SHAMap
