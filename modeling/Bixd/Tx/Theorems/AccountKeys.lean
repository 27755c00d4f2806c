import Bixd.Protocol.Theorems.Serializer
import Bixd.Tx.AccountKeys
import Bixd.Tx.Theorems.SetAccount

open Function List Serializer Except Option SLE

-- No account is locked out of signing.

open ApplyView ReadView

namespace AccountKeys

-- What matters of an entry: of an account whether its master key is disabled and whether it has a
-- regular key, and of a list its quorum and its signers.
inductive Seen
  | root (disabled regular : Bool)
  | list (quorum entries : Option STVar)

def look (s : SLE) : Option Seen :=
  match s.type with
  | .ltACCOUNT_ROOT => some (.root (s.isFlag lsfDisableMaster) (s.isFieldPresent sfRegularKey))
  | .ltSIGNER_LIST => some (.list (s.fields sfSignerQuorum) (s.fields sfSignerEntries))
  | _ => none

variable {s s' : SLE} {x : STVar}

theorem look_root (h : s.type = .ltACCOUNT_ROOT) :
    look s = some (.root (s.isFlag lsfDisableMaster) (s.isFieldPresent sfRegularKey)) := by
  rw [look, h]

theorem look_list (h : s.type = .ltSIGNER_LIST) :
    look s = some (.list (s.fields sfSignerQuorum) (s.fields sfSignerEntries)) := by
  rw [look, h]

theorem look_congr (ht : s'.type = s.type)
    (hf : ∀ f ∈ [sfFlags, sfRegularKey, sfSignerQuorum, sfSignerEntries],
      s'.fields f = s.fields f) : look s' = look s := by
  have hflags : s'.isFlag lsfDisableMaster = s.isFlag lsfDisableMaster := by
    unfold isFlag getFlags getFieldU32
    rw [hf sfFlags (by decide)]
  have hkey : s'.isFieldPresent sfRegularKey = s.isFieldPresent sfRegularKey := by
    unfold isFieldPresent
    rw [hf sfRegularKey (by decide)]
  rw [look, ht, hflags, hkey, hf sfSignerQuorum (by decide), hf sfSignerEntries (by decide), look]

section

variable (h : f ∉ [sfFlags, sfRegularKey, sfSignerQuorum, sfSignerEntries])

include h

theorem look_set : look (s.set f x) = look s :=
  look_congr rfl fun _ hg => fields_set_of_ne fun hfg => h (hfg ▸ hg)

theorem look_makeFieldAbsent : look (s.makeFieldAbsent f) = look s :=
  look_congr rfl fun _ hg => fields_makeFieldAbsent_of_ne fun hfg => h (hfg ▸ hg)

end

theorem inert_look : Inert look where
  dir s h := by rw [look, h]
  ticket s h := by rw [look, h]
  offer s h := by rw [look, h]
  root s h := by rw [look_root h]; rfl
  set s f x _ hf := by
    refine look_set ?_
    revert f
    decide
  absent s _ := look_makeFieldAbsent (by decide)

section

variable [Digest] {id : AccountID} {L L' : UInt256 → Option Seen} {l l' : Ledger}

-- The list that is seen under these fields.
def IsList (owner : AccountID) (quorum entries : Option STVar) : Prop :=
  ∃ signers, SignerEntries.deserialize entries.isSome (STVar.asArray entries) = .ok signers ∧
    IsSignerList owner (STVar.asUInt32 quorum) signers

-- `Held` of what is seen.
structure HeldBy (L : UInt256 → Option Seen) : Prop where
  roots : ∀ id, L (Keylet.account id).key = some (.root true false) →
    ∃ q e, L (Keylet.signers id).key = some (.list q e)
  lists : ∀ id q e, L (Keylet.signers id).key = some (.list q e) → IsList id q e

theorem read_account : l.view.read (.account id) = some s ↔
    l.contents.state (Keylet.account id).key = some s ∧ s.type = .ltACCOUNT_ROOT := by
  rw [l.denotes.read, filter_eq_some_iff, Keylet.check_account]

theorem check_signers : (Keylet.signers id).check s ↔ s.type = .ltSIGNER_LIST := by
  simp [Keylet.check, Keylet.signers]

theorem read_signers : l.view.read (.signers id) = some s ↔
    l.contents.state (Keylet.signers id).key = some s ∧ s.type = .ltSIGNER_LIST := by
  rw [l.denotes.read, filter_eq_some_iff, check_signers]

omit [Digest] in

theorem look_eq_root : look s = some (.root d r) ↔
    s.type = .ltACCOUNT_ROOT ∧ s.isFlag lsfDisableMaster = d ∧
      s.isFieldPresent sfRegularKey = r := by
  unfold look
  split
  case h_1 ht => simp [ht]
  case h_2 ht => simp [ht]
  case h_3 hr _ => exact ⟨nofun, fun h => (hr h.left).elim⟩

omit [Digest] in

theorem look_eq_list : look s = some (.list q e) ↔
    s.type = .ltSIGNER_LIST ∧ s.fields sfSignerQuorum = q ∧ s.fields sfSignerEntries = e := by
  unfold look
  split
  case h_1 ht => simp [ht]
  case h_2 ht => simp [ht]
  case h_3 _ hl => exact ⟨nofun, fun h => (hl h.left).elim⟩

omit [Digest] in

theorem isList_iff : IsList id (s.fields sfSignerQuorum) (s.fields sfSignerEntries) ↔
    ∃ signers, signersOf s = .ok signers ∧
      IsSignerList id (s.getFieldU32 sfSignerQuorum) signers := by
  rfl

theorem held_iff : Held l ↔ HeldBy (seen look l) := by
  constructor
  case mp =>
    intro h
    refine ⟨fun id hroot => ?_, fun id q e hlist => ?_⟩
    · have ⟨s, hs, hlook⟩ := bind_eq_some_iff.mp hroot
      have ⟨ht, hd, hr⟩ := look_eq_root.mp hlook
      have hsome := (h.roots id s (read_account.mpr ⟨hs, ht⟩) hd).resolve_left (by rw [hr]; nofun)
      have ⟨s', hs'⟩ := isSome_iff_exists.mp hsome
      have ⟨hstate, ht'⟩ := read_signers.mp hs'
      exact ⟨_, _, bind_eq_some_iff.mpr ⟨s', hstate, look_list ht'⟩⟩
    · have ⟨s, hs, hlook⟩ := bind_eq_some_iff.mp hlist
      obtain ⟨ht, rfl, rfl⟩ := look_eq_list.mp hlook
      exact isList_iff.mpr (h.lists id s (read_signers.mpr ⟨hs, ht⟩))
  case mpr =>
    intro h
    refine ⟨fun id s hs hd => ?_, fun id s hs => ?_⟩
    · have ⟨hstate, ht⟩ := read_account.mp hs
      by_cases hr : s.isFieldPresent sfRegularKey
      case pos => exact .inl hr
      have hlook := look_eq_root.mpr ⟨ht, hd, by simpa using hr⟩
      have ⟨q, e, hlist⟩ := h.roots id (bind_eq_some_iff.mpr ⟨s, hstate, hlook⟩)
      have ⟨s', hs', hlook'⟩ := bind_eq_some_iff.mp hlist
      have hread := read_signers.mpr ⟨hs', (look_eq_list.mp hlook').left⟩
      exact .inr (by rw [hread]; rfl)
    · have ⟨hstate, ht⟩ := read_signers.mp hs
      exact isList_iff.mp (h.lists id _ _ (bind_eq_some_iff.mpr ⟨s, hstate, look_list ht⟩))

-- What a transaction of an account can do to what is seen.
inductive Outcome (id : AccountID) (L : UInt256 → Option Seen) : (UInt256 → Option Seen) → Prop
  | same : Outcome id L L
  -- The master key is disabled only if it was, or if there is another way to sign.
  | root {d r d' r'} : L (Keylet.account id).key = some (.root d r) →
    (d' = true → r' = false → (d = true ∧ r = false) ∨
      ∃ q e, L (Keylet.signers id).key = some (.list q e)) →
    Outcome id L (Function.update L (Keylet.account id).key (some (.root d' r')))
  | listed {q e} : IsList id q e →
    Outcome id L (Function.update L (Keylet.signers id).key (some (.list q e)))
  | unlisted : L (Keylet.account id).key ≠ some (.root true false) →
    Outcome id L (Function.update L (Keylet.signers id).key none)

omit [Digest] in

theorem of_update {x : Seen} (h : update L m o n = some x)
    (ho : o ≠ some x) : n ≠ m ∧ L n = some x := by
  have hne : n ≠ m := by
    rintro rfl
    rw [update_self] at h
    exact ho h
  exact ⟨hne, by rwa [update_of_ne hne] at h⟩

theorem Outcome.held (hk : KeysDiffer) (h : Outcome id L L') (hL : HeldBy L) : HeldBy L' := by
  cases h
  case same => exact hL
  case root d r d' r' hroot hkey =>
    -- The entry of an account is not a list.
    have hlist (id' : AccountID) {q e : Option STVar}
        (h : L (Keylet.signers id').key = some (.list q e)) :
        (Keylet.signers id').key ≠ (Keylet.account id).key := by
      intro heq
      rw [heq, hroot] at h
      cases h
    refine ⟨fun id' hroot' => ?_, fun id' q e hlist' => ?_⟩
    · have ⟨q, e, hl⟩ : ∃ q e, L (Keylet.signers id').key = some (.list q e) := by
        by_cases heq : id' = id
        case pos =>
          subst heq
          rw [update_self] at hroot'
          cases hroot'
          rcases hkey rfl rfl with ⟨rfl, rfl⟩ | hl
          · exact hL.roots id' hroot
          · exact hl
        case neg =>
          rw [update_of_ne fun h => heq (hk.account h)] at hroot'
          exact hL.roots id' hroot'
      exact ⟨q, e, by rw [update_of_ne (hlist id' hl), hl]⟩
    · exact hL.lists id' q e (of_update hlist' nofun).right
  case listed q₀ e₀ hnew =>
    refine ⟨fun id' hroot' => ?_, fun id' q e hlist' => ?_⟩
    · by_cases heq : id' = id
      case pos => subst heq; exact ⟨q₀, e₀, update_self ..⟩
      have ⟨q, e, hl⟩ := hL.roots id' (of_update hroot' nofun).right
      exact ⟨q, e, by rw [update_of_ne fun h => heq (hk.signers h), hl]⟩
    · by_cases heq : id' = id
      case pos =>
        subst heq
        rw [update_self] at hlist'
        cases hlist'
        exact hnew
      case neg =>
        rw [update_of_ne fun h => heq (hk.signers h)] at hlist'
        exact hL.lists id' q e hlist'
  case unlisted hroot =>
    refine ⟨fun id' hroot' => ?_, fun id' q e hlist' => ?_⟩
    · have hold := (of_update hroot' nofun).right
      have hne : id' ≠ id := by rintro rfl; exact hroot hold
      have ⟨q, e, hl⟩ := hL.roots id' hold
      exact ⟨q, e, by rw [update_of_ne fun h => hne (hk.signers h), hl]⟩
    · exact hL.lists id' q e (of_update hlist' nofun).right

-- What a view on top of the ledger leads to.
def Leaves (id : AccountID) (B : UInt256 → Option SLE) (v : ApplyView) : Prop :=
  (v.Over B ∧ ∀ n, v.Quiet look B n) ∨
    ∃ m o, Ends look B v m o ∧
      Outcome id (fun n => (B n).bind look) (Function.update (fun n => (B n).bind look) m o)

variable {B : UInt256 → Option SLE} {w v : ApplyView} {p p' : SLEPtr}

theorem peek_list (hv : w.Over B) (hq : ∀ n, w.Quiet look B n)
    (h : w.peek (.signers id) = (some p, v)) :
    ∃ q e, (B (Keylet.signers id).key).bind look = some (.list q e) := by
  have ⟨hc, _, _, hcases⟩ := peek_eq_some hv h
  have hlook := look_list (check_signers.mp hc)
  refine ⟨_, _, Eq.trans ?_ hlook⟩
  rcases hcases with ⟨a, ha, hi, _⟩ | ⟨_, hB, _⟩
  · exact (hq _).look_eq hi ha (by rw [hlook]; rfl)
  · rw [hB]; rfl

theorem leaves_root (hv : w.Over B) (hq : ∀ n, w.Quiet look B n) (hp : HasRoot look w p)
    (hkey : p.key = (Keylet.account id).key) (h : w.update p' = .ok v)
    (ht : p'.sle.type = p.sle.type) (hk : p'.key = p.key)
    (hsign : p'.sle.isFlag lsfDisableMaster → p'.sle.isFieldPresent sfRegularKey = false →
      (p.sle.isFlag lsfDisableMaster ∧ p.sle.isFieldPresent sfRegularKey = false) ∨
        ∃ q e, (B (Keylet.signers id).key).bind look = some (.list q e)) : Leaves id B v := by
  have hends := update_ends hv (fun n _ => hq n) h
  rw [look_root (ht.trans hp.type), hk, hkey] at hends
  have ⟨a, q, hi, ha, hlook⟩ := hp.knows
  rw [look_root hp.type] at hlook
  have hold := (hq p.key).look_eq hi ha (by rw [hlook]; rfl)
  rw [hlook, hkey] at hold
  exact .inr ⟨_, _, hends, .root hold hsign⟩

end

section SetRegularKey

variable [Digest] {B : UInt256 → Option SLE} {w v : ApplyView} {ctx : ApplyContext}

omit [Digest] in

theorem spend_eq (ctx : ApplyContext) (p : SLEPtr) :
    (SetRegularKey.doApply.spend ctx p).key = p.key ∧
      (SetRegularKey.doApply.spend ctx p).sle.type = p.sle.type := by
  unfold SetRegularKey.doApply.spend
  split <;> exact ⟨rfl, rfl⟩

theorem regularKeySet_leaves (hv : w.Over B) (hq : ∀ n, w.Quiet look B n)
    (h : SetRegularKey.doApply ctx w = .ok (tesSUCCESS, v)) :
    Leaves (ctx.tx.getAccountID sfAccount) B v := by
  unfold SetRegularKey.doApply at h
  split at h
  case h_1 => cases h
  case h_2 p w₁ hpeek =>
    have ⟨h₁, hroot⟩ := peek_root look hv hpeek
    have ⟨hp, hkey⟩ := hroot p rfl
    have hq₁ (n : UInt256) := h₁.quiet n (hq n)
    have ⟨hsk, hst⟩ := spend_eq ctx p
    dsimp only at h
    split at h
    case isTrue =>
      have ⟨v', hu, h⟩ := bind_eq_ok.mp h
      cases h
      refine leaves_root h₁.atop hq₁ hp hkey hu hst hsk fun _ hr => ?_
      simp [SLEPtr.set, isFieldPresent, fields_set_self] at hr
    case isFalse =>
      split at h
      case isTrue =>
        split at h
        case h_1 => cases h
        case h_2 q w₂ hpeek' =>
          have hlist := peek_list h₁.atop hq₁ hpeek'
          have h₂ := peek_spares look h₁.atop hpeek'
          have ⟨v', hu, h⟩ := bind_eq_ok.mp h
          cases h
          exact leaves_root h₂.atop (fun n => h₂.quiet n (hq₁ n)) (hp.spares inert_look h₂) hkey hu
            hst hsk fun _ _ => .inr hlist
      case isFalse hd =>
        have ⟨v', hu, h⟩ := bind_eq_ok.mp h
        cases h
        refine leaves_root h₁.atop hq₁ hp hkey hu hst hsk fun hd' _ => absurd ?_ hd
        rwa [SLEPtr.makeFieldAbsent, isFlag, getFlags, makeFieldAbsent_eq,
          getFieldU32_setOptU32_of_ne (by decide)] at hd'

end SetRegularKey

section SetAccount

open SetAccount

variable [Digest] [Ripesha] {B : UInt256 → Option SLE} {w v : ApplyView} {tx : STTx} {s : SLE}
variable {x : UInt32} {ctx : ApplyContext}

section

variable (hv : w.Over B) (hq : ∀ n, w.Quiet look B n)

include hv hq

theorem disableMaster_cases (h : doApply.disableMaster tx w s x y = (.ok z, v)) :
    z &&& lsfDisableMaster = lsfDisableMaster →
      y &&& lsfDisableMaster = lsfDisableMaster ∨ x &&& lsfDisableMaster = lsfDisableMaster ∨
        s.isFieldPresent sfRegularKey ∨
        ∃ q e, (B (Keylet.signers (tx.getAccountID sfAccount)).key).bind look =
          some (.list q e) := by
  unfold doApply.disableMaster at h
  split at h
  case isTrue =>
    split at h
    case isTrue => cases h
    split at h
    case isTrue =>
      split at h
      case h_1 => cases h
      case h_2 q w' hpeek =>
        cases h
        exact fun _ => .inr (.inr (.inr (peek_list hv hq hpeek)))
    case isFalse hr =>
      cases h
      exact fun _ => .inr (.inr (.inl (by simpa using hr)))
  case isFalse =>
    split at h
    case isTrue hc =>
      cases h
      have hx := (UInt32.and_flag 20 (by decide)).resolve_left hc.right
      exact fun _ => .inr (.inl hx)
    case isFalse =>
      cases h
      exact fun hz => .inl hz

theorem flags_cases (h : doApply.flags tx w s = (.ok z, v)) :
    Spares look B w v ∧ (z &&& lsfDisableMaster = lsfDisableMaster →
      s.isFlag lsfDisableMaster ∨ s.isFieldPresent sfRegularKey ∨
        ∃ q e, (B (Keylet.signers (tx.getAccountID sfAccount)).key).bind look =
          some (.list q e)) := by
  have ⟨x, y, x', z', hx, hdisable, hx', hfreeze, hz'⟩ := flags_eq_ok h
  refine ⟨disableMaster_spares look hv hdisable, fun hz => ?_⟩
  rw [hz' _ (by decide), freeze_and (by decide) (by decide) (by decide) hfreeze,
    hx' _ (by decide)] at hz
  have hcases := disableMaster_cases hv hq hdisable hz
  rw [hx _ (by decide), or_self_left] at hcases
  exact hcases.imp_left decide_eq_true

theorem accountSet_leaves (h : doApply ctx w = .ok (tesSUCCESS, v)) :
    Leaves (ctx.tx.getAccountID sfAccount) B v := by
  have ⟨p, w₁, z, w₂, p', hpeek, hflags, hu, hk, ht, hz, hreg⟩ := doApply_eq_ok h
  have ⟨h₁, hroot⟩ := peek_root look hv hpeek
  have ⟨hp, hkey⟩ := hroot p rfl
  have ⟨h₂, hsign⟩ := flags_cases h₁.atop (fun n => h₁.quiet n (hq n)) hflags
  have hq₂ (n : UInt256) := h₂.quiet n (h₁.quiet n (hq n))
  refine leaves_root h₂.atop hq₂ (hp.spares inert_look h₂) hkey hu ht hk fun hd hr => ?_
  rw [isFlag, hz, decide_eq_true_iff] at hd
  rw [hreg] at hr
  rcases hsign hd with hold | hold | hold
  · exact .inl ⟨hold, hr⟩
  · rw [hold] at hr; cases hr
  · exact .inr hold

end

end SetAccount

section SetSignerList

open SetSignerList

-- What has been checked about the signers.

theorem sum_eq_ok {id : AccountID} (h : validateQuorumAndSignerEntries.sum id acc signers = .ok n) :
    (∀ e ∈ signers, 0 < e.weight ∧ e.account ≠ id) ∧
      n = acc + (signers.map (·.weight.toNat)).sum := by
  induction signers generalizing acc
  case nil => cases h; exact ⟨nofun, rfl⟩
  case cons e signers hi =>
    unfold validateQuorumAndSignerEntries.sum at h
    have ⟨hw, h⟩ := Except.ite_error_eq_ok.mp h
    split at h
    case isTrue => cases h
    case isFalse ha =>
      have ⟨hall, hn⟩ := hi h
      refine ⟨fun e' he' => ?_, ?_⟩
      · rcases mem_cons.mp he' with rfl | he'
        · exact ⟨UInt16.pos_iff_ne_zero.mpr hw, ha⟩
        · exact hall e' he'
      · rw [hn, map_cons, sum_cons, Nat.add_assoc]

theorem sum_error {id : AccountID}
    (h : validateQuorumAndSignerEntries.sum id acc signers = .error ter) : ter ≠ tesSUCCESS := by
  induction signers generalizing acc
  case nil => cases h
  case cons e signers hi =>
    unfold validateQuorumAndSignerEntries.sum at h
    split at h
    case isTrue => cases h; decide
    split at h
    case isTrue => cases h; decide
    case isFalse => exact hi h

theorem pairwise_lt_of_adjacentFind {signers : List SignerEntry}
    (hs : signers.Pairwise (·.account ≤ ·.account)) (h : adjacentFind signers = false) :
    signers.Pairwise (·.account < ·.account) := by
  induction signers
  case nil => exact .nil
  case cons e signers hi =>
    cases signers
    case nil => exact pairwise_singleton ..
    case cons e' signers =>
      simp only [adjacentFind, Bool.or_eq_false_iff, decide_eq_false_iff_not] at h
      have ⟨hle, hs⟩ := pairwise_cons.mp hs
      have hrest := hi hs h.right
      have hlt := BitVec.lt_of_le_ne (hle e' (.head _)) h.left
      refine pairwise_cons.mpr ⟨fun x hx => ?_, hrest⟩
      rcases mem_cons.mp hx with rfl | hx
      · exact hlt
      · exact BitVec.lt_trans hlt ((pairwise_cons.mp hrest).left x hx)

theorem isSignerList_of_validate {id : AccountID} {signers : List SignerEntry}
    (hs : signers.Pairwise (·.account ≤ ·.account))
    (h : validateQuorumAndSignerEntries quorum signers id = tesSUCCESS) :
    IsSignerList id quorum signers := by
  unfold validateQuorumAndSignerEntries at h
  split at h
  case isTrue => cases h
  case isFalse hlen =>
    split at h
    case isTrue => cases h
    case isFalse hadj =>
      have hlt := pairwise_lt_of_adjacentFind hs (by simpa using hadj)
      split at h
      case h_1 hsum => exact absurd h (sum_error hsum)
      case h_2 n hsum =>
        have ⟨hall, hn⟩ := sum_eq_ok hsum
        split at h
        case isTrue => cases h
        case isFalse hq =>
          rw [not_or] at hq hlen
          exact {
            min := not_lt.mp hlen.left
            max := not_lt.mp hlen.right
            distinct := Pairwise.imp BitVec.ne_of_lt (pairwise_map.mpr hlt)
            weight := fun e he => (hall e he).left
            other := fun e he => (hall e he).right
            nonzero := hq.left
            reached := by rw [hn, Nat.zero_add] at hq; exact not_lt.mp hq.right
          }

theorem deserialize_written (signers : List SignerEntry) :
    SignerEntries.deserialize true (signers.map fun entry =>
      (sfSignerEntry, STObject.ofList
        [(sfAccount, .account (some entry.account)), (sfSignerWeight, .uint16 entry.weight)])) =
      .ok signers := by
  rw [SignerEntries.deserialize, if_neg (by decide), mapM_map]
  induction signers
  case nil => rfl
  case cons e signers hi => rw [mapM_cons, comp_apply, hi]; rfl

variable [Digest] {B : UInt256 → Option SLE} {w v : ApplyView} {ctx : ApplyContext}
variable {id : AccountID} {quorum flags : UInt32} {signers : List SignerEntry} {p : SLEPtr}

omit [Digest] in

theorem writeSignersToSLE_key : (writeSignersToSLE s quorum signers flags).key = s.key := by
  unfold writeSignersToSLE
  split <;> rfl

omit [Digest] in

theorem look_written (flags : UInt32) {s : SLE} (ht : s.type = .ltSIGNER_LIST)
    (hs : IsSignerList id quorum signers) :
    ∃ q e, look (writeSignersToSLE s quorum signers flags) = some (.list q e) ∧ IsList id q e := by
  have htype : (writeSignersToSLE s quorum signers flags).type = s.type := by
    unfold writeSignersToSLE
    split <;> rfl
  have hquorum : (writeSignersToSLE s quorum signers flags).fields sfSignerQuorum =
      some (.uint32 quorum) := by
    unfold writeSignersToSLE
    split
    case isTrue => rw [fields_set_of_ne (by decide)]; rfl
    case isFalse => rfl
  refine ⟨_, _, look_list (htype.trans ht), signers, ?_, ?_⟩
  · rw [writeSignersToSLE, fields_set_self, STVar.asArray, STArray.toList_ofList]
    exact deserialize_written signers
  · rw [hquorum]
    exact hs

theorem removeSigners_cases (hv : w.Over B) (hq : ∀ n, w.Quiet look B n)
    (h : removeSignersFromLedger w id = .ok (tesSUCCESS, v)) :
    Spares look B w v ∨ Ends look B v (Keylet.signers id).key none := by
  unfold removeSignersFromLedger at h
  split at h
  case h_1 w₁ hpeek => cases h; exact .inl (peek_spares _ hv hpeek)
  case h_2 list w₁ hpeek =>
    have h₁ := peek_spares look hv hpeek
    have ⟨hc, hkey, _⟩ := peek_eq_some hv hpeek
    have hsome : (look list.sle).isSome := by rw [look_list (check_signers.mp hc)]; rfl
    have hknows := peek_knows look hv hpeek
    have ⟨⟨removed, w₂⟩, hremove, h⟩ := bind_eq_ok.mp h
    have h₂ := (dirRemove_dulls inert_look.dir h₁.atop hremove).toSpares
    dsimp only at h
    split at h
    case isTrue => cases h
    have ⟨w₃, hadjust, h⟩ := bind_eq_ok.mp h
    have h₃ := adjustOwnerCountOf_spares inert_look.count h₂.atop hadjust
    have h₂₃ := h₂.trans h₃
    have ⟨w₄, herase, h⟩ := bind_eq_ok.mp h
    cases h
    have hq₃ (n : UInt256) := h₂₃.quiet n (h₁.quiet n (hq n))
    exact .inr (hkey ▸ erase_ends h₃.atop hq₃ (h₂₃.knows hknows hsome) hsome rfl herase)

theorem add_ends (hs : IsSignerList id quorum signers) (hv : w.Over B)
    (hq : ∀ n, n ≠ (Keylet.signers id).key → w.Quiet look B n) (hp : HasRoot look w p)
    (h : replaceSignerList.add w id p quorum signers flags added = .ok (tesSUCCESS, v)) :
    ∃ q e, Ends look B v (Keylet.signers id).key (some (.list q e)) ∧ IsList id q e := by
  unfold replaceSignerList.add at h
  dsimp only at h
  generalize halloc : w.alloc (writeSignersToSLE
    (.make (Keylet.signers id).type (Keylet.signers id).key) quorum signers flags) = r at h
  have ⟨list, w₀⟩ := r
  have ⟨hsle, hb, hi⟩ := item_alloc halloc
  have ⟨q, e, hlook, hlist⟩ := look_written flags
    (s := .make (Keylet.signers id).type (Keylet.signers id).key) rfl hs
  rw [← hsle] at hlook
  have hkey : list.key = (Keylet.signers id).key := by
    rw [SLEPtr.key, hsle, writeSignersToSLE_key]
    rfl
  have ⟨w₁, hinsert, h⟩ := bind_eq_ok.mp h
  have ⟨⟨page, w₂⟩, hadd, h⟩ := bind_eq_ok.mp h
  cases page
  case none => cases h
  case some page =>
    have ⟨w₃, hupdate, h⟩ := bind_eq_ok.mp h
    have ⟨⟨p', w₄⟩, hadjust, h⟩ := bind_eq_ok.mp h
    cases h
    have h₀ := (item_spares look hv hb hi).toSpares
    have hp₀ := (hp.spares inert_look h₀).knows
    have hq₀ (n : UInt256) (hn : n ≠ list.key) := h₀.quiet n (hq n (hkey ▸ hn))
    have h₁ := insert_ends h₀.atop hq₀ hinsert
    have hdir : (Keylet.ownerDir id).type = .ltDIR_NODE := rfl
    have hdesc (s : SLE) : (describeOwnerDir id s).type = s.type := rfl
    have h₂ := (dirAdd_dulls inert_look.dir hdir hdesc h₁.atop hadd).toSpares
    have hq₂ (n : UInt256) (hn : n ≠ list.key) := h₂.quiet n (h₁.quiet n hn)
    have h₃ := update_ends (p := list.set sfOwnerNode (.uint64 page)) h₂.atop hq₂ hupdate
    have hne := hp₀.key_ne hinsert
    have hp₂ := h₂.knows (hp₀.insert hinsert) (inert_look.root _ hp.type)
    have hp₃ := hp₂.update (q := list.set sfOwnerNode (.uint64 page)) hne hupdate
    have h₄ := adjustOwnerCount_spares inert_look.count h₃.atop ⟨hp.type, hp₃⟩ hadjust
    refine ⟨q, e, ?_, hlist⟩
    rw [SLEPtr.set, look_set (by decide), hlook] at h₃
    exact hkey ▸ h₃.spares h₄

theorem replaceSignerList_leaves
    (hs : IsSignerList (ctx.tx.getAccountID sfAccount) quorum signers) (hv : w.Over B)
    (hq : ∀ n, w.Quiet look B n)
    (h : replaceSignerList ctx m w quorum signers = .ok (tesSUCCESS, v)) :
    Leaves (ctx.tx.getAccountID sfAccount) B v := by
  have ⟨⟨ter, w₁⟩, hremove, h⟩ := bind_eq_ok.mp h
  dsimp only at h
  split at h
  case isTrue hter => cases h; exact absurd rfl hter
  case isFalse hter =>
    rw [not_not.mp hter] at hremove
    have ⟨hv₁, hq₁⟩ : w₁.Over B ∧
        ∀ n, n ≠ (Keylet.signers (ctx.tx.getAccountID sfAccount)).key → w₁.Quiet look B n := by
      rcases removeSigners_cases hv hq hremove with h₁ | h₁
      · exact ⟨h₁.atop, fun n _ => h₁.quiet n (hq n)⟩
      · exact ⟨h₁.atop, h₁.quiet⟩
    split at h
    case h_1 => cases h
    case h_2 p w₂ hpeek =>
      have ⟨h₂, hroot⟩ := peek_root look hv₁ hpeek
      generalize w₂.base.rules .featureMultiSignReserve = reserve at h
      generalize (if reserve then 1 else signerCountBasedOwnerCountDelta signers.length) = n at h
      split at h
      case isTrue => cases h
      have ⟨q, e, hends, hlist⟩ := add_ends hs h₂.atop (fun n hn => h₂.quiet n (hq₁ n hn))
        (hroot p rfl).left h
      exact .inr ⟨_, _, hends, .listed hlist⟩

theorem destroySignerList_leaves (hv : w.Over B) (hq : ∀ n, w.Quiet look B n)
    (h : destroySignerList ctx w = .ok (tesSUCCESS, v)) :
    Leaves (ctx.tx.getAccountID sfAccount) B v := by
  unfold destroySignerList at h
  dsimp only at h
  split at h
  case h_1 => cases h
  case h_2 p w₁ hpeek =>
    have ⟨h₁, hroot⟩ := peek_root look hv hpeek
    have ⟨hp, hkey⟩ := hroot p rfl
    have hq₁ (n : UInt256) := h₁.quiet n (hq n)
    split at h
    case isTrue => cases h
    case isFalse hd =>
      rcases removeSigners_cases h₁.atop hq₁ h with h₂ | h₂
      · exact .inl ⟨h₂.atop, fun n => h₂.quiet n (hq₁ n)⟩
      · refine .inr ⟨_, _, h₂, .unlisted fun hlocked => hd ?_⟩
        -- The account that has been found is that of the ledger.
        have ⟨a, q, hi, ha, hlook⟩ := hp.knows
        rw [look_root hp.type] at hlook
        have hold := (hq₁ p.key).look_eq hi ha (by rw [hlook]; rfl)
        rw [hlook, hkey, hlocked] at hold
        simp only [some.injEq, Seen.root.injEq] at hold
        exact ⟨hold.left.symm, by rw [← hold.right]; rfl⟩

omit [Digest] in

theorem pairwise_of_determineOperation (h : determineOperation tx = .ok (quorum, signers, op)) :
    signers.Pairwise (·.account ≤ ·.account) := by
  unfold determineOperation at h
  dsimp only at h
  split at h
  case isTrue =>
    have ⟨_, _, h⟩ := bind_eq_ok.mp h
    cases h
    exact pairwise_insertionSort ..
  case isFalse =>
    split at h
    case isTrue => cases h; exact .nil
    case isFalse => cases h; exact .nil

theorem signerListSet_leaves {rules : Rules}
    (hpre : preflight ⟨ctx.tx, rules, sigValid⟩ = .ok tesSUCCESS) (hv : w.Over B)
    (hq : ∀ n, w.Quiet look B n) (h : doApply ctx m w = .ok (tesSUCCESS, v)) :
    Leaves (ctx.tx.getAccountID sfAccount) B v := by
  unfold doApply at h
  split at h
  case h_1 quorum signers hop =>
    have ⟨ret, _, hpre⟩ := bind_eq_ok.mp hpre
    split at hpre
    case isTrue hret => cases hpre; exact absurd hret (by decide)
    rw [hop] at hpre
    dsimp only at hpre
    split at hpre
    case isTrue hter =>
      injection hpre with hpre
      exact absurd hpre hter
    case isFalse hvalid =>
      have hs := isSignerList_of_validate (pairwise_of_determineOperation hop) (not_not.mp hvalid)
      exact replaceSignerList_leaves hs hv hq h
  case h_2 => exact destroySignerList_leaves hv hq h
  case h_3 => cases h
  case h_4 => cases h

end SetSignerList

section

variable [Digest] {l l' : Ledger}

theorem Leaves.outcome {id : AccountID} {v' : ApplyView} (h : Leaves id l.contents.state v)
    (hb : v'.base = v.base) (hi : v'.item = v.item) (ha : v'.apply l = .ok l') :
    Outcome id (seen look l) (seen look l') := by
  rcases h with ⟨hv, hq⟩ | ⟨m, o, hends, hout⟩
  · have hs := item_spares look hv hb hi
    rw [seen_of_quiet hs.atop (fun n => hs.quiet n (hq n)) ha]
    exact .same
  · rw [hends.seen hb hi ha]
    exact hout

theorem Spared.held (h : Spared l l') (hl : Held l) : Held l' := by
  refine ⟨fun id s' hs' hd' => ?_, fun id s' hs' => ?_⟩
  · have ⟨s, hs, hd, hr⟩ := h.roots id s' hs' hd'
    rw [hr]
    refine (hl.roots id s hs hd).imp_right fun hlist => ?_
    rcases h.lists id with heq | ⟨hnone, _⟩
    · rwa [heq]
    · rw [hnone] at hs'; cases hs'
  · rcases h.lists id with heq | ⟨_, hnone⟩
    · exact hl.lists id s' (heq ▸ hs')
    · rw [hnone] at hs'; cases hs'

variable [Ripesha]

theorem Step.held (hk : KeysDiffer) (h : Step l l') (hl : Held l) : Held l' := by
  cases h
  case other h => exact h.held hl
  case tx kind checks ctx sigValid ter h =>
    rw [held_iff] at hl ⊢
    rcases Transactor.applyTo_cases inert_look h with
      hsame | ⟨m, w, v, v', hpre, hw, hd, hb, hi, ha⟩
    · rwa [hsame]
    · have hq (n : UInt256) := hw.quiet n (Quiet.init n)
      have hleaves : Leaves (ctx.tx.getAccountID sfAccount) l.contents.state v := by
        cases kind
        case accountSet => exact accountSet_leaves hw.atop hq hd
        case regularKeySet => exact regularKeySet_leaves hw.atop hq hd
        case signerListSet => exact signerListSet_leaves hpre hw.atop hq hd
      exact (hleaves.outcome hb hi ha).held hk hl

theorem Run.held (hk : KeysDiffer) (h : Run l l') (hl : Held l) : Held l' := by
  induction h
  case refl => exact hl
  case tail _ hstep hi => exact hstep.held hk hi

theorem checkSingleSign_eq_success {view : ReadView} (hfix : view.rules .fixMasterKeyAsRegularKey)
    (h : Transactor.checkSingleSign tx view = tesSUCCESS) :
    ∃ s, view.read (.account (tx.getAccountID sfAccount)) = some s ∧
      (s.optAccountID sfRegularKey = some (calcAccountID (tx.getFieldVL sfSigningPubKey)) ∨
        (¬s.isFlag lsfDisableMaster ∧
          tx.getAccountID sfAccount = calcAccountID (tx.getFieldVL sfSigningPubKey))) := by
  unfold Transactor.checkSingleSign at h
  dsimp only at h
  split at h
  case isTrue => cases h
  split at h
  case h_1 => cases h
  case h_2 s hs =>
    refine ⟨s, hs, ?_⟩
    split at h
    case isTrue hr => exact .inl hr
    split at h
    case isTrue hm => exact .inr ⟨by simpa using hm.left, hm.right⟩
    case isFalse => split at h <;> cases h

-- Somebody can sign for every account, and only those who may.
theorem Run.never_locked_out (hk : KeysDiffer) (h : Run l l') (hl : Held l) :
    Held l' ∧ ∀ (view : ReadView) tx, view.rules .fixMasterKeyAsRegularKey →
      Transactor.checkSingleSign tx view = tesSUCCESS →
      ∃ s, view.read (.account (tx.getAccountID sfAccount)) = some s ∧
        (s.optAccountID sfRegularKey = some (calcAccountID (tx.getFieldVL sfSigningPubKey)) ∨
          (¬s.isFlag lsfDisableMaster ∧
            tx.getAccountID sfAccount = calcAccountID (tx.getFieldVL sfSigningPubKey))) :=
  ⟨h.held hk hl, fun _ _ hfix hsign => checkSingleSign_eq_success hfix hsign⟩

end

section Instance

attribute [local instance] shortDigest

-- All public keys belong to the same account.
@[reducible]
def oneRipesha : Ripesha := ⟨fun _ => 1⟩

attribute [local instance] oneRipesha

theorem keysDiffer_shortDigest : KeysDiffer where
  account id id' h := by
    have h := shortDigest.eq_of_sha512Half (by simp [add16, addBitString])
      (by simp [add16, addBitString]) h
    exact SerialIter.addBitString_injective (by decide) (append_cancel_left h)
  signers id id' h := by
    have h := shortDigest.eq_of_sha512Half
      (by simp [add16, add32, addBitString])
      (by simp [add16, add32, addBitString]) h
    exact SerialIter.addBitString_injective (by decide) (append_cancel_right (append_cancel_left h))

def firstRoot : SLE :=
  ((SLE.make .ltACCOUNT_ROOT (Keylet.account 1).key).set sfSequence (.uint32 1)).set
    sfBalance (.amount (.ofDrops 1000))

def firstLedger : Ledger :=
  (Ledger.blank { seq := 1, drops := 1000 } fun _ => true).store ⟨0, firstRoot⟩ (by decide +kernel)

-- A transaction of the account that is signed with its master key.
def signed (type : TxType) (seq : UInt32) (f : SField) (x : STVar) : ApplyContext where
  tx := {
    txID   := 1
    type   := type
    fields := (STObject.ofList
      [(sfAccount, .account (some 1)), (sfSequence, .uint32 seq), (sfFee, .amount (.ofDrops 0)),
        (sfSigningPubKey, .vl (2 :: List.replicate 32 0)), (f, x)]).find
  }
  fees := ⟨0, 0, 0, 0⟩

-- The account sets a regular key and then disables its master key.
def secondLedger : Except String (TER × Ledger) :=
  SetRegularKey.transactor.applyTo (fun _ _ _ _ => true)
    (signed .ttREGULAR_KEY_SET 1 sfRegularKey (.account (some 2))) true firstLedger

def thirdLedger : Except String (TER × Ledger) := do
  SetAccount.transactor.applyTo (fun _ _ _ _ => true)
    (signed .ttACCOUNT_SET 2 sfSetFlag (.uint32 asfDisableMaster)) true (← secondLedger).2

theorem held_firstLedger : Held firstLedger := by
  have hstate (n : UInt256) (s : SLE) (h : firstLedger.contents.state n = some s) :
      s = firstRoot := by
    rw [firstLedger, Ledger.contents_store] at h
    unfold Contents.put at h
    dsimp only at h
    rw [update_apply] at h
    split at h
    case isTrue => exact (some.inj h).symm
    case isFalse => cases h
  refine ⟨fun id s hs hd => ?_, fun id s hs => ?_⟩
  · rw [hstate _ s (read_account.mp hs).left] at hd
    exact absurd hd (by decide)
  · have ⟨h, ht⟩ := read_signers.mp hs
    rw [hstate _ s h] at ht
    cases ht

theorem never_locked_out_thirdLedger : ∃ l, Run firstLedger l ∧ Held firstLedger ∧
    (l.view.read (.account 1)).any (·.isFlag lsfDisableMaster) ∧ Held l := by
  have h : thirdLedger.toOption.any fun r => (r.1 = tesSUCCESS) ∧
      (r.2.view.read (.account 1)).any (·.isFlag lsfDisableMaster) := by
    decide +kernel
  cases hr : thirdLedger
  case error => rw [hr] at h; cases h
  case ok r =>
    have ⟨ter, l⟩ := r
    rw [hr] at h
    have ⟨⟨ter', l'⟩, h₂, h₃⟩ := bind_eq_ok.mp hr
    have hrun : Run firstLedger l := .tail (.single (.tx .regularKeySet h₂)) (.tx .accountSet h₃)
    have ⟨hheld, _⟩ := Run.never_locked_out keysDiffer_shortDigest hrun held_firstLedger
    exact ⟨l, hrun, held_firstLedger, (of_decide_eq_true h).right, hheld⟩

end Instance

end AccountKeys
