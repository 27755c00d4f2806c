import Bixd.Misc.Manifest

namespace ManifestCache

variable {c : ManifestCache} {k : PublicKey}

-- The current signing key of a master key that is not revoked.
def Signs (c : ManifestCache) (k s : PublicKey) : Prop :=
  ∃ m, (c.map_ k = some m) ∧ (m.revoked = false) ∧ (m.signingKey = s)

-- The two maps fit together.
structure Consistent (c : ManifestCache) : Prop where
  exact_    : ∀ s k, c.signingToMasterKeys_ s = some k ↔ c.Signs k s
  inverse   : ∀ k s, c.Signs k s → c.getMasterKey (c.getSigningKey k) = k
  unshared  : ∀ k k' s, c.Signs k s → c.Signs k' s → k = k'
  forgotten : ∀ s, (∀ k, ¬c.Signs k s) → c.getMasterKey s = s

-- The manifest does not name the signing key of another master key.
def Fresh (c : ManifestCache) (m : Manifest) : Prop :=
  m.revoked = false → ∀ k, c.Signs k m.signingKey → k = m.masterKey

theorem getSigningKey_of_signs (h : c.Signs k s) : c.getSigningKey k = s := by
  have ⟨m, hm, hr, hs⟩ := h
  simp [getSigningKey, hm, hr, hs]

theorem consistent_iff :
    c.Consistent ↔ ∀ s k, c.signingToMasterKeys_ s = some k ↔ c.Signs k s := by
  constructor
  case mp => exact fun h => h.exact_
  intro h
  refine ⟨h, fun k s hs => ?_, fun k k' s hs hs' => ?_, fun s hs => ?_⟩
  · rw [getSigningKey_of_signs hs, getMasterKey, (h s k).mpr hs]
  · have hk := (h s k).mpr hs
    rw [(h s k').mpr hs'] at hk
    exact (Option.some.inj hk).symm
  · unfold getMasterKey
    split
    case h_1 k hk => exact absurd ((h s k).mp hk) (hs k)
    case h_2 => rfl

theorem any_signingKey : (c.map_ k).any (·.signingKey = s) = true ↔
    ∃ o, (c.map_ k = some o) ∧ (o.signingKey = s) := by
  cases c.map_ k <;> simp

theorem applyManifest_accepted (h : (c.applyManifest m).1 = .accepted) :
    ((c.applyManifest m).2.map_ = Function.update c.map_ m.masterKey (some m)) ∧
    ∀ s, (c.applyManifest m).2.signingToMasterKeys_ s =
      if m.revoked = false ∧ s = m.signingKey then some m.masterKey
      else if (c.map_ m.masterKey).any (·.signingKey = s) then none
      else c.signingToMasterKeys_ s := by
  unfold applyManifest at h ⊢
  dsimp only at h ⊢
  split_ifs at h ⊢ with h₁ h₂ h₃
  case neg =>
    refine ⟨rfl, fun s => ?_⟩
    have hr : m.revoked = true := by simpa using h₃
    cases ho : c.map_ m.masterKey
    case none => simp [hr]
    case some o =>
      by_cases hs : s = o.signingKey
      case pos => simp [hr, hs]
      case neg => simp [hr, hs, Ne.symm hs]
  case pos =>
    refine ⟨rfl, fun s => ?_⟩
    have hr : m.revoked = false := by simpa using h₃
    by_cases hm : s = m.signingKey
    case pos => simp [hr, hm]
    cases ho : c.map_ m.masterKey
    case none => simp [hm]
    case some o =>
      by_cases hs : s = o.signingKey
      case pos => simp [hs]; simp [hs ▸ hm]
      case neg => simp [hm, hs, Ne.symm hs]

theorem applyManifest_not_accepted (h : (c.applyManifest m).1 ≠ .accepted) :
    (c.applyManifest m).2 = c := by
  unfold applyManifest at h ⊢
  dsimp only at h ⊢
  split_ifs at h ⊢ <;> first | rfl | exact absurd rfl h

section

variable (h : (c.applyManifest m).1 = .accepted)

include h

theorem sequence_lt_of_accepted (ho : c.map_ m.masterKey = some o) : o.sequence < m.sequence := by
  by_contra hle
  have hs : (c.map_ m.masterKey).any (m.sequence ≤ ·.sequence) = true := by
    rw [ho, Option.any_some]
    exact decide_eq_true (UInt32.not_lt.mp hle)
  rw [applyManifest, if_pos hs] at h
  cases h

theorem not_revoked_of_accepted (ho : c.map_ m.masterKey = some o) : o.revoked = false := by
  have hlt := UInt32.lt_iff_toNat_lt.mp (sequence_lt_of_accepted h ho)
  have hm := m.sequence.toNat_lt
  refine decide_eq_false fun hr => ?_
  rw [hr] at hlt
  change 4294967295 < m.sequence.toNat at hlt
  omega

theorem signs_applyManifest :
    (c.applyManifest m).2.Signs k s ↔
      if k = m.masterKey then m.revoked = false ∧ m.signingKey = s else c.Signs k s := by
  unfold Signs
  rw [(applyManifest_accepted h).left]
  split
  case isTrue hk => simp [hk]
  case isFalse hk => simp only [Function.update_of_ne hk]

end

-- The manifest keeps the maps consistent exactly if its signing key is not that of another master
-- key.
theorem consistent_applyManifest (hc : c.Consistent) (h : (c.applyManifest m).1 = .accepted) :
    (c.applyManifest m).2.Consistent ↔ c.Fresh m := by
  constructor
  case mp =>
    intro hc' hr k hk
    by_contra hne
    have hs : (c.applyManifest m).2.Signs m.masterKey m.signingKey :=
      (signs_applyManifest h).mpr ((if_pos rfl).symm ▸ ⟨hr, rfl⟩)
    have hs' : (c.applyManifest m).2.Signs k m.signingKey :=
      (signs_applyManifest h).mpr ((if_neg hne).symm ▸ hk)
    exact hne (hc'.unshared _ _ _ hs' hs)
  case mpr =>
    intro hf
    rw [consistent_iff]
    intro s k
    rw [(applyManifest_accepted h).right, signs_applyManifest h]
    split_ifs with hm hk hold hk hk
    · simp [hm.left, hm.right, hk]
    · -- Another master key would have the signing key already.
      simp only [Option.some.injEq]
      refine ⟨fun hk' => absurd hk'.symm hk, fun hk' => absurd (hf hm.left k (hm.right ▸ hk')) hk⟩
    · simp only [false_iff]
      exact fun hms => hm ⟨hms.left, hms.right.symm⟩
    · -- The signing key that is superseded was the master key's own.
      simp only [false_iff]
      intro hs
      have ⟨o, ho, hos⟩ := any_signingKey.mp hold
      exact hk (hc.unshared k m.masterKey s hs ⟨o, ho, not_revoked_of_accepted h ho, hos⟩)
    · rw [hc.exact_]
      refine ⟨fun hs => ?_, fun hms => absurd ⟨hms.left, hms.right.symm⟩ hm⟩
      have ⟨o, ho, _, hos⟩ := hs
      rw [hk] at ho
      exact absurd (any_signingKey.mpr ⟨o, ho, hos⟩) hold
    · exact hc.exact_ s k

theorem consistent_empty : ({} : ManifestCache).Consistent :=
  consistent_iff.mpr fun _ _ => ⟨nofun, fun ⟨_, hm, _⟩ => nomatch hm⟩

theorem applied_concat : applied (ms ++ [m]) = ((applied ms).applyManifest m).2 :=
  List.foldl_append

theorem sequence_applyManifest (ho : c.map_ k = some o) :
    ∃ o', ((c.applyManifest m).2.map_ k = some o') ∧ (o.sequence ≤ o'.sequence) := by
  by_cases h : (c.applyManifest m).1 = .accepted
  case neg => exact ⟨o, by rw [applyManifest_not_accepted h, ho], UInt32.le_refl _⟩
  rw [(applyManifest_accepted h).left]
  by_cases hk : k = m.masterKey
  case pos =>
    subst hk
    exact ⟨m, Function.update_self .., UInt32.le_of_lt (sequence_lt_of_accepted h ho)⟩
  case neg => exact ⟨o, (Function.update_of_ne hk ..).trans ho, UInt32.le_refl _⟩

-- The maps are consistent at all times exactly if no manifest that is accepted names the current
-- signing key of another master key. Sequences never decrease.
theorem consistent_iff_fresh (ms : List Manifest) :
    ((∀ ms₁ ms₂, ms = ms₁ ++ ms₂ → (applied ms₁).Consistent) ↔
      ∀ ms₁ m ms₂, ms = ms₁ ++ m :: ms₂ → ((applied ms₁).applyManifest m).1 = .accepted →
        (applied ms₁).Fresh m) ∧
    (∀ ms₁ m ms₂, ms = ms₁ ++ m :: ms₂ → ∀ k o, (applied ms₁).map_ k = some o →
      ∃ o', ((applied (ms₁ ++ [m])).map_ k = some o') ∧ (o.sequence ≤ o'.sequence)) := by
  refine ⟨⟨fun hc ms₁ m ms₂ hms ha => ?_, fun hf ms₁ => ?_⟩, fun ms₁ m ms₂ _ k o ho => ?_⟩
  · have hc₂ := hc (ms₁ ++ [m]) ms₂ (by rw [hms]; simp)
    rw [applied_concat] at hc₂
    exact (consistent_applyManifest (hc ms₁ _ hms) ha).mp hc₂
  · induction ms₁ using List.reverseRecOn
    case nil => exact fun _ _ => consistent_empty
    case append_singleton ms₁ m hi =>
      intro ms₂ hms
      have hms' : ms = ms₁ ++ m :: ms₂ := by rw [hms]; simp
      have hc := hi (m :: ms₂) hms'
      rw [applied_concat]
      by_cases ha : ((applied ms₁).applyManifest m).1 = .accepted
      case pos => exact (consistent_applyManifest hc ha).mpr (hf ms₁ m ms₂ hms' ha)
      case neg => rw [applyManifest_not_accepted ha]; exact hc
  · rw [applied_concat]
    exact sequence_applyManifest ho

-- Two master keys announce the same signing key, and one of them another key after that. The other
-- master key is not found any more.
theorem getMasterKey_shared_signing_key : ∃ c,
    c = applied [⟨[1], [3], 1, true⟩, ⟨[2], [3], 1, true⟩, ⟨[2], [4], 2, true⟩] ∧
      c.Signs [1] [3] ∧ (c.getSigningKey [1] = [3]) ∧ (c.getMasterKey [3] = [3]) :=
  ⟨_, rfl, ⟨_, rfl, by decide, rfl⟩, by decide, by decide⟩

end ManifestCache
