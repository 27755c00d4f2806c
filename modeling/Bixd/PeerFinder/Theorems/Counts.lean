import Bixd.PeerFinder.Logic

namespace PeerFinder

variable {K : Type}

namespace Counts

variable {c : Counts}

@[simp]
theorem adjust_attempts : (c.adjust s n).attempts =
    c.attempts + if s.state = .connect ∨ s.state = .connected then n else 0 := by
  cases h : s.state <;> simp [adjust, h] <;> grind

@[simp]
theorem adjust_active : (c.adjust s n).active =
    c.active + if s.state = .active then n else 0 := by
  cases h : s.state <;> simp [adjust, h] <;> grind

@[simp]
theorem adjust_in_active : (c.adjust s n).in_active = c.in_active +
    if s.state = .active ∧ !s.fixed ∧ !s.reserved ∧ s.inbound then n else 0 := by
  cases h : s.state <;> simp [adjust, h] <;> grind

@[simp]
theorem adjust_out_active : (c.adjust s n).out_active = c.out_active +
    if s.state = .active ∧ !s.fixed ∧ !s.reserved ∧ !s.inbound then n else 0 := by
  cases h : s.state <;> simp [adjust, h] <;> grind

@[simp]
theorem adjust_fixed : (c.adjust s n).fixed = c.fixed + if s.fixed then n else 0 := by
  cases h : s.state <;> simp [adjust, h] <;> grind

@[simp]
theorem adjust_fixed_active : (c.adjust s n).fixed_active =
    c.fixed_active + if s.state = .active ∧ s.fixed then n else 0 := by
  cases h : s.state <;> simp [adjust, h] <;> grind

@[simp]
theorem adjust_reserved : (c.adjust s n).reserved =
    c.reserved + if s.reserved then n else 0 := by
  cases h : s.state <;> simp [adjust, h] <;> grind

@[simp]
theorem adjust_acceptCount : (c.adjust s n).acceptCount =
    c.acceptCount + if s.state = .accept then n else 0 := by
  cases h : s.state <;> simp [adjust, h] <;> grind

@[simp]
theorem adjust_closingCount : (c.adjust s n).closingCount =
    c.closingCount + if s.state = .closing then n else 0 := by
  cases h : s.state <;> simp [adjust, h] <;> grind

@[simp]
theorem adjust_in_max : (c.adjust s n).in_max = c.in_max := by
  cases h : s.state <;> simp [adjust, h] <;> grind

@[simp]
theorem adjust_out_max : (c.adjust s n).out_max = c.out_max := by
  cases h : s.state <;> simp [adjust, h] <;> grind

theorem cast_countP_cons (p : SlotImp K → Prop) [DecidablePred p] :
    ((s ::ₘ m).countP p : Int) = m.countP p + if p s then 1 else 0 := by
  rw [Multiset.countP_cons]
  split_ifs <;> rfl

namespace Tallies

theorem add (h : c.Tallies m) : (c.add s).Tallies (s ::ₘ m) := by
  constructor <;> simp only [Counts.add, cast_countP_cons]
  · simp [h.attempts]
  · simp [h.active]
  · simp [h.in_active]
  · simp [h.out_active]
  · simp [h.fixed]
  · simp [h.fixed_active]
  · simp [h.reserved]
  · simp [h.acceptCount]
  · simp [h.closingCount]

theorem remove (h : c.Tallies (s ::ₘ m)) : (c.remove s).Tallies m := by
  constructor <;> simp only [Counts.remove]
  · simp only [adjust_attempts, h.attempts, cast_countP_cons]
    split_ifs <;> omega
  · simp only [adjust_active, h.active, cast_countP_cons]
    split_ifs <;> omega
  · simp only [adjust_in_active, h.in_active, cast_countP_cons]
    split_ifs <;> omega
  · simp only [adjust_out_active, h.out_active, cast_countP_cons]
    split_ifs <;> omega
  · simp only [adjust_fixed, h.fixed, cast_countP_cons]
    split_ifs <;> omega
  · simp only [adjust_fixed_active, h.fixed_active, cast_countP_cons]
    split_ifs <;> omega
  · simp only [adjust_reserved, h.reserved, cast_countP_cons]
    split_ifs <;> omega
  · simp only [adjust_acceptCount, h.acceptCount, cast_countP_cons]
    split_ifs <;> omega
  · simp only [adjust_closingCount, h.closingCount, cast_countP_cons]
    split_ifs <;> omega

end Tallies

end Counts

end PeerFinder
