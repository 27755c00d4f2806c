import Bixd.Consensus.LedgerTrie.Theorems.Insert

open List

namespace LedgerTrie

open Ledger

variable {L I : Type} [Ledger L I]

namespace Node

variable {anc : List I} {par : Option Nat} {c m n : Node L} {cs ds : List (Node L)} {l : L}
variable {p : Path} {count : Nat}

omit [Ledger L I] in

theorem erase_perm (hcs : n.children = cs ++ c :: ds) :
    ∃ es, es.Perm (cs ++ ds) ∧ n.erase cs.length = { n with children := es } := by
  match ds.eq_nil_or_concat with
  | .inl hd => exact ⟨cs, by simp [hd], by simp [erase, hcs, hd]⟩
  | .inr ⟨ds', d, hd⟩ =>
    refine ⟨cs ++ d :: ds', ?_, ?_⟩
    · rw [hd]
      exact perm_middle.trans (perm_append_singleton ..).symm |>.trans (by simp)
    · have hl : n.children = cs ++ c :: ds' ++ [d] := by simp [hcs, hd]
      have hs : (cs ++ c :: ds' ++ [d]).set cs.length d = cs ++ d :: ds' ++ [d] := by simp
      simp only [erase, hl, getLast?_concat]
      rw [hs, dropLast_concat]

omit [Ledger L I] in

theorem erase_addChild (hcs : n.children = cs ++ c :: ds) (c' : Node L) :
    (n.addChild c').erase cs.length = { n with children := cs ++ c' :: ds } := by
  simp only [erase, addChild, getLast?_concat, hcs]
  have hs : (cs ++ c :: ds ++ [c']).set cs.length c' = cs ++ c' :: ds ++ [c'] := by simp
  rw [hs, dropLast_concat]

-- `removeAt` together with the flag of the compressing loop.
def removeLoc (count : Nat) (p : Path) (n : Node L) : Node L × Bool :=
  let n := modifyAt (fun m => { m with tipSupport := sub32 m.tipSupport count }) p n
  let n := modifyUp (decBranch count) p n
  compress p n

omit [Ledger L I] in

theorem removeLoc_under (hcs : n.children = cs ++ c :: ds) (p : Path) :
    removeLoc count (cs.length :: p) n =
      (decBranch count n).compressStep cs.length (removeLoc count p c).1 (removeLoc count p c).2 := by
  simp only [removeLoc]
  rw [modifyAt_under hcs, modifyUp_under rfl]
  simp [compress, compressStep, decBranch, hcs]

-- What the loop does at the parent of a node: it drops the node, lets the only child of the node
-- take its place, or stops.
omit [Ledger L I] in

theorem compressStep_cases (hcs : n.children = cs ++ c :: ds) (loc : Node L) (reached : Bool) :
    (loc.tipSupport = 0 ∧ loc.children = [] ∧ ∃ es, es.Perm (cs ++ ds) ∧
      n.compressStep cs.length loc reached = ({ n with children := es }, true)) ∨
    (loc.tipSupport = 0 ∧ ∃ child, loc.children = [child] ∧
      n.compressStep cs.length loc reached =
        ({ n with children := cs ++
            { child with span := loc.span.merge child.span, parent := some n.addr } :: ds }, true)) ∨
    ((reached = true → loc.Compact) ∧
      n.compressStep cs.length loc reached = ({ n with children := cs ++ loc :: ds }, false)) := by
  have hset : n.children.set cs.length loc = cs ++ loc :: ds := by simp [hcs]
  simp only [compressStep, hset]
  by_cases hr : (reached && loc.tipSupport == 0) = true
  case pos =>
    rw [if_pos hr]
    simp only [Bool.and_eq_true, beq_iff_eq] at hr
    match hc : loc.children with
    | [] =>
      have ⟨es, hp, he⟩ := erase_perm (n := { n with children := cs ++ loc :: ds }) rfl
      exact .inl ⟨hr.right, rfl, es, hp, by simp [he]⟩
    | [child] =>
      have he := erase_addChild (n := { n with children := cs ++ loc :: ds }) rfl
      exact .inr <| .inl ⟨hr.right, child, rfl, by simp [he]⟩
    | _ :: _ :: _ => exact .inr <| .inr ⟨fun _ _ => by simp [hc], rfl⟩
  case neg =>
    rw [if_neg hr]
    refine .inr <| .inr ⟨?_, rfl⟩
    intro hr' h0
    simp [hr', h0] at hr

theorem Valid.erase (h : Valid anc par n) (hcs : n.children = cs ++ c :: ds)
    {es : List (Node L)} (hes : es.Perm (cs ++ ds)) (hb : b + c.branchSupport = n.branchSupport) :
    Valid anc par { n with branchSupport := b, children := es } := by
  have hp := h.placed
  have hbr := h.branch_eq
  have hn := h.nodup
  have hmem : ∀ d ∈ es, d ∈ n.children := by
    intro d hd
    have := hes.subset hd
    simp only [hcs, mem_append, mem_cons] at this ⊢
    tauto
  refine .intro ⟨hp.start_eq, hp.start_lt, hp.end_le, hp.anc_eq, hp.parent_eq⟩ ?_ ?_ ?_ ?_
  · have hs := (hes.map branchSupport).sum_eq
    simp only [hcs, map_append, map_cons, sum_append, sum_cons] at hbr hs ⊢
    omega
  · rw [hcs, map_append, map_cons, nodup_middle, nodup_cons, ← map_append] at hn
    exact (hes.map startID).nodup_iff.mpr hn.right
  · exact fun d hd => h.child (hmem d hd)
  · exact fun d hd => h.compact (hmem d hd)

theorem Valid.merge (h : Valid anc par n) (hcs : n.children = [c]) :
    Valid anc par { c with span := n.span.merge c.span, parent := par } ∧
    startID { c with span := n.span.merge c.span, parent := par } = n.startID := by
  have hp := h.placed
  have hv := h.child (c := c) (by simp [hcs])
  have hcp := hv.placed
  have hst : c.span.start = n.span.end := by simpa [word] using hcp.start_eq
  have hlt := hcp.start_lt
  have hlt' := hp.start_lt
  have hst' := hp.start_eq
  have hm : n.span.merge c.span = ⟨n.span.start, c.span.end, c.span.ledger⟩ := by
    rw [Span.merge, if_pos (by omega)]
    congr 1
    omega
  have he : hist c.span.ledger n.span.end = hist n.span.ledger n.span.end := by
    simpa [word] using hcp.anc_eq
  rw [hm]
  constructor
  · refine .intro ⟨hp.start_eq, ?_, hcp.end_le, ?_, rfl⟩ hv.branch_eq hv.nodup
      (fun d hd => hv.child hd) (fun d hd => hv.compact hd)
    · dsimp only
      omega
    · exact hist_eq_of_le he (by omega) |>.trans hp.anc_eq
  · exact hist_eq_iff.mp he _ hlt'

theorem words_merge (h : Valid anc par n) (hcs : n.children = [c]) (h0 : n.tipSupport = 0) :
    words { c with span := n.span.merge c.span, parent := par } = n.words := by
  have hcp := h.child (c := c) (by simp [hcs]) |>.placed
  have hst : c.span.start = n.span.end := by simpa [word] using hcp.start_eq
  have hlt := hcp.start_lt
  rw [words_eq n, hcs, h0, words_eq]
  simp [words_eq c, word, Span.merge, ← hst, hlt]

-- What `remove` does to the node it starts from, for `count` units of support for `l`.
structure Removed (anc : List I) (par : Option Nat) (l : L) (count : Nat) (n n' : Node L)
    (reached : Bool) : Prop where
  valid   : Valid anc par n'
  words   : n.words = n'.words + Multiset.replicate count (Ledger.word l)
  span    : n'.span = n.span
  addr    : n'.addr = n.addr
  compact : reached = false → n.Compact → n'.Compact

theorem At.removeLoc (h : At l m n p) (hv : Valid anc par n) (hc : count ≤ m.tipSupport)
    (hb : n.branchSupport < 2 ^ 32) :
    Removed anc par l count n (n.removeLoc count p).1 (n.removeLoc count p).2 := by
  induction h generalizing anc par
  case here hw =>
    have hp := hv.placed
    have hbr := hv.branch_eq
    have h₁ := sub32_eq hc (by omega)
    have h₂ : sub32 m.branchSupport count = m.branchSupport - count := sub32_eq (by omega) hb
    refine ⟨?valid, ?words, rfl, rfl, fun h => by contradiction⟩
    case valid =>
      refine .intro ⟨hp.start_eq, hp.start_lt, hp.end_le, hp.anc_eq, hp.parent_eq⟩ ?_ hv.nodup
        (fun _ hc => hv.child hc) (fun _ hc => hv.compact hc)
      simp only [removeLoc, compress, modifyUp, modifyAt, decBranch, h₁, h₂]
      omega
    case words =>
      rw [words_eq, words_eq (Prod.fst _), ← hw]
      simp only [removeLoc, compress, modifyUp, modifyAt, decBranch, h₁, word]
      obtain ⟨k, hk⟩ := Nat.exists_eq_add_of_le' hc
      rw [hk, Nat.add_sub_cancel, Multiset.replicate_add]
      abel
  case under n c cs ds p hcs ha ih =>
    have hmem : c ∈ n.children := by simp [hcs]
    have hble := hv.branchSupport_child_le hmem
    have hcv := hv.child hmem
    have hi := ih hcv (by omega)
    rw [removeLoc_under hcs]
    generalize (c.removeLoc count p).1 = c', (c.removeLoc count p).2 = reached at hi
    have hbr : c.branchSupport = c'.branchSupport + count := by
      rw [← hi.valid.card_words, ← hcv.card_words, hi.words]
      simp
    have hd : decBranch count n = { n with branchSupport := n.branchSupport - count } := by
      rw [decBranch, sub32_eq (by omega) hb]
    have hs : c'.startID = c.startID := by simp only [startID, hi.span]
    -- `d` is the child that stands for `c` in the end
    have hkeep : ∀ d, Valid n.word (some n.addr) d → d.Compact → d.startID = c'.startID →
        d.words = c'.words → ∀ r, Removed anc par l count n
          { n with branchSupport := n.branchSupport - count, children := cs ++ d :: ds } r := by
      intro d hdv hdk hds hdw r
      refine ⟨?_, ?_, rfl, rfl, ?_⟩
      · apply hv.replace hcs hdv (hds.trans hs) hdk
        have : d.branchSupport = c'.branchSupport := by
          rw [← hdv.card_words, ← hi.valid.card_words, hdw]
        omega
      · apply words_replace _ _ _ hcs (hdw ▸ hi.words) <;> rfl
      · intro _ hk h0
        simpa [hcs] using hk h0
    rw [hd]
    have hcs' : { n with branchSupport := n.branchSupport - count }.children = cs ++ c :: ds := hcs
    rcases compressStep_cases hcs' c' reached with ⟨h0, hc0, es, hes, he⟩ | ⟨h0, child, hch, he⟩ | ⟨hk, he⟩
    · rw [he]
      have hcw : c'.words = 0 := by simp [words_eq, h0, hc0]
      refine ⟨?_, ?_, rfl, rfl, fun h => by contradiction⟩
      · apply hv.erase hcs hes
        have : c'.branchSupport = 0 := by rw [← hi.valid.card_words, hcw, Multiset.card_zero]
        dsimp only
        omega
      · rw [words_eq, words_eq (Prod.fst _), hcs, wordsBelow_perm hes]
        simp only [wordsBelow_append, wordsBelow_cons, hi.words, hcw, word]
        abel
    · rw [he]
      obtain ⟨hmv, hms⟩ := hi.valid.merge hch
      exact hkeep _ hmv (hi.valid.compact (c := child) (by simp [hch])) hms
        (words_merge hi.valid hch h0) _
    · rw [he]
      refine hkeep c' hi.valid ?_ rfl rfl _
      cases hr : reached
      case false => exact hi.compact hr (hv.compact hmem)
      case true => exact hk hr

end Node
end LedgerTrie
