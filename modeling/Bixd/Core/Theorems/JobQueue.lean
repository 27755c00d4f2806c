import Bixd.Core.JobQueue

open List

namespace Job

variable {F : Type} {i j : Job F}

theorem lt_iff : i.lt j ↔ (j.type.ctorIdx < i.type.ctorIdx) ∨
    (i.type.ctorIdx = j.type.ctorIdx) ∧ (i.index < j.index) := by
  have h (a b : JobType) : (a < b) = (a.ctorIdx < b.ctorIdx) := rfl
  simp only [lt, h]
  split_ifs <;> simp <;> omega

theorem lt_trans (h : i.lt j) (h' : j.lt k) : i.lt k := by
  rw [lt_iff] at *
  omega

theorem lt_total (h : i.index ≠ j.index) : i.lt j ∨ j.lt i := by
  rw [lt_iff, lt_iff]
  omega

end Job

namespace JobQueue

variable {F : Type} {q : JobQueue F} {jobs : List (Job F)}

theorem getJobLimit_nonneg (t : JobType) : 0 ≤ getJobLimit t := by
  cases t <;> decide

@[simp]
theorem jobData_setJobTypeData (q : JobQueue F) (t u : JobType) (d : JobTypeData) :
    (q.setJobTypeData t d).jobData u = if u = t then d else q.jobData u :=
  Function.update_apply ..

theorem sum_setJobTypeData (q : JobQueue F) (t : JobType) (d : JobTypeData)
    (f : JobTypeData → Int) :
    ∑ u, f ((q.setJobTypeData t d).jobData u) = ∑ u, f (q.jobData u) - f (q.jobData t) + f d := by
  rw [← Finset.sum_erase_add _ _ (Finset.mem_univ t),
    ← Finset.sum_erase_add _ (fun u => f (q.jobData u)) (Finset.mem_univ t)]
  have h : ∀ u ∈ Finset.univ.erase t, f ((q.setJobTypeData t d).jobData u) = f (q.jobData u) := by
    intro u hu
    rw [jobData_setJobTypeData, if_neg (Finset.ne_of_mem_erase hu)]
  rw [Finset.sum_congr rfl h, jobData_setJobTypeData, if_pos rfl]
  ring

theorem mem_insert (h : i ∈ insert job jobs) : i = job ∨ i ∈ jobs := by
  induction jobs
  case nil => simpa [insert] using h
  case cons j jobs ih =>
    simp only [insert] at h
    split_ifs at h <;> simp only [mem_cons] at h ⊢ <;> tauto

theorem insert_perm (h : ∀ j ∈ jobs, j.index ≠ job.index) :
    (insert job jobs).Perm (job :: jobs) := by
  induction jobs
  case nil => rfl
  case cons j jobs ih =>
    have hj := Job.lt_total (h j (by simp))
    simp only [insert]
    split_ifs with h₁ h₂
    · rfl
    · exact .trans (.cons j (ih fun i hi => h i (by simp [hi]))) (.swap ..)
    · tauto

theorem insert_sorted (h : jobs.Pairwise (·.lt ·)) : (insert job jobs).Pairwise (·.lt ·) := by
  induction jobs
  case nil => exact .cons nofun .nil
  case cons j jobs ih =>
    have ⟨hj, hs⟩ := pairwise_cons.mp h
    simp only [insert]
    split_ifs with h₁ h₂
    · exact .cons (forall_mem_cons.mpr ⟨h₁, fun i hi => Job.lt_trans h₁ (hj i hi)⟩) h
    · refine .cons (fun i hi => ?_) (ih hs)
      obtain rfl | hi := mem_insert hi
      · exact h₂
      · exact hj i hi
    · exact h

theorem queueJob_eq (q : JobQueue F) (job : Job F) : ∃ n m : Nat,
    (q.queueJob job = { q with semaphore := q.semaphore + n }.setJobTypeData job.type
      { q.jobData job.type with
        waiting := (q.jobData job.type).waiting + 1
        deferred := (q.jobData job.type).deferred + m }) ∧
    (n = 1 ∧ m = 0 ∧
        (q.jobData job.type).waiting + (q.jobData job.type).running < getJobLimit job.type ∨
      n = 0 ∧ m = 1 ∧
        getJobLimit job.type ≤ (q.jobData job.type).waiting + (q.jobData job.type).running) := by
  rw [queueJob]
  split_ifs with h
  · exact ⟨1, 0, by simp [addTask], .inl ⟨rfl, rfl, h⟩⟩
  · exact ⟨0, 1, rfl, .inr ⟨rfl, rfl, Int.not_lt.mp h⟩⟩

theorem addRefCountedJob_eq (h : t ≠ .jtINVALID) :
    q.addRefCountedJob t name func = (true, queueJob { q with
      lastJob := q.lastJob + 1
      jobSet := insert (q.nextJob t name func) q.jobSet } (q.nextJob t name func)) := by
  rw [addRefCountedJob, if_neg h]
  rfl

theorem countP_cons_type (job : Job F) (jobs : List (Job F)) (u : JobType) :
    ((job :: jobs).countP (·.type = u) : Int) =
      if u = job.type then (jobs.countP (·.type = job.type) : Int) + 1
      else (jobs.countP (·.type = u) : Int) := by
  split_ifs with h
  case pos =>
    subst h
    rw [countP_cons_of_pos (by simp)]
    rfl
  case neg => rw [countP_cons_of_neg (by simpa using Ne.symm h)]

-- What `getNextJob` takes: the first job whose type is below its limit.
structure Takes (q : JobQueue F) (job : Job F) (l r : List (Job F)) : Prop where
  split  : q.jobSet = l ++ job :: r
  below  : (q.jobData job.type).running < getJobLimit job.type
  first  : ∀ j ∈ l, ¬(q.jobData j.type).running < getJobLimit j.type

theorem getNextJob.search_eq_some (h : search q jobs = some (job, jobs')) :
    ∃ l r, (jobs = l ++ job :: r) ∧ (jobs' = l ++ r) ∧
      ((q.jobData job.type).running < getJobLimit job.type) ∧
      (∀ j ∈ l, ¬(q.jobData j.type).running < getJobLimit j.type) := by
  induction jobs generalizing jobs'
  case nil => cases h
  case cons j jobs ih =>
    simp only [search] at h
    split_ifs at h with _ hl _
    · cases h
      exact ⟨[], jobs, rfl, rfl, hl, nofun⟩
    · have ⟨⟨k, ks⟩, hk, h⟩ := Option.map_eq_some_iff.mp h
      cases h
      obtain ⟨l, r, rfl, rfl, hb, hf⟩ := ih hk
      exact ⟨j :: l, r, rfl, rfl, hb, forall_mem_cons.mpr ⟨hl, hf⟩⟩

theorem getNextJob.search_isSome (hl : ∀ j ∈ jobs, (q.jobData j.type).running ≤ getJobLimit j.type)
    (hw : ∀ j ∈ jobs, 0 < (q.jobData j.type).waiting) (hj : job ∈ jobs)
    (hb : (q.jobData job.type).running < getJobLimit job.type) : (search q jobs).isSome := by
  induction jobs
  case nil => cases hj
  case cons j jobs ih =>
    have ⟨hlj, hl⟩ := forall_mem_cons.mp hl
    have ⟨hwj, hw⟩ := forall_mem_cons.mp hw
    rw [search, if_pos hlj]
    split_ifs with h
    · rfl
    · rw [Option.isSome_map]
      apply ih hl hw
      obtain rfl | hj := mem_cons.mp hj
      · exact absurd hb h
      · exact hj

theorem enter_eq_some (h : processTask.enter q = some (job, q')) :
    ∃ l r, (q.Takes job l r) ∧ q' = { q with
      jobSet := l ++ r
      processCount := q.processCount + 1 }.setJobTypeData job.type { q.jobData job.type with
        waiting := (q.jobData job.type).waiting - 1
        running := (q.jobData job.type).running + 1 } := by
  simp only [processTask.enter, getNextJob, Option.bind_eq_bind, Option.bind_eq_some_iff] at h
  obtain ⟨⟨j, q₁⟩, ⟨⟨k, jobs⟩, hs, ⟨⟩, _, h₁⟩, h⟩ := h
  obtain ⟨l, r, hq, rfl, hb, hf⟩ := getNextJob.search_eq_some hs
  cases h₁
  cases h
  exact ⟨l, r, ⟨hq, hb, hf⟩, rfl⟩

theorem leave_eq_some (h : processTask.leave q t = some q') :
    ((0 < (q.jobData t).deferred) ∧ q' = { q with
        semaphore := q.semaphore + 1
        processCount := q.processCount - 1 }.setJobTypeData t { q.jobData t with
          deferred := (q.jobData t).deferred - 1
          running := (q.jobData t).running - 1 }) ∨
    ((q.jobData t).deferred ≤ 0 ∧ q' = { q with
        processCount := q.processCount - 1 }.setJobTypeData t { q.jobData t with
          running := (q.jobData t).running - 1 }) := by
  simp only [processTask.leave, finishJob, Option.bind_eq_bind, Option.bind_eq_some_iff] at h
  obtain ⟨q₁, ⟨⟨⟩, _, q₂, h₂, h₁⟩, h⟩ := h
  cases h₁
  cases h
  simp only [finishJob.queueDeferred] at h₂
  split_ifs at h₂ with hd
  · cases h₂
    exact .inl ⟨hd, by simp [setJobTypeData, addTask, getJobTypeData]⟩
  · cases h₂
    exact .inr ⟨Int.not_lt.mp hd, rfl⟩

-- The counts of each type as the job set and the tasks in progress determine them. A signalled task
-- that has not been started stands for a waiting job that is not deferred.
structure System.Counts (s : System F) : Prop where
  limit    : ∀ t, (s.queue.jobData t).running ≤ getJobLimit t
  deferred : ∀ t, (s.queue.jobData t).deferred =
    max 0 ((s.queue.jobData t).waiting + (s.queue.jobData t).running - getJobLimit t)
  waiting  : ∀ t, (s.queue.jobData t).waiting = s.queue.jobSet.countP (·.type = t)
  running  : ∀ t, (s.queue.jobData t).running = s.progress.countP (·.type = t)
  tasks    : (s.queue.semaphore + s.acquired : Int) =
    ∑ t, ((s.queue.jobData t).waiting - (s.queue.jobData t).deferred)

-- The jobs that were added are those in the job set and those handed to a task.
structure System.Inv (s : System F) : Prop extends s.Counts where
  sorted    : s.queue.jobSet.Pairwise (·.lt ·)
  limited   : ∀ job ∈ s.added, 0 < getJobLimit job.type
  indexed   : ∀ job ∈ s.added, job.index ≤ s.queue.lastJob
  distinct  : (s.added.map (·.index)).Nodup
  conserved : s.added.Perm (s.queue.jobSet ++ s.handed)
  handed    : ∀ job ∈ s.progress, job ∈ s.handed

theorem System.Counts.update {s s' : System F} (h : s.Counts)
    (hq : s'.queue.jobData = (s.queue.setJobTypeData t d).jobData)
    (hl : d.running ≤ getJobLimit t)
    (hd : d.deferred = max 0 (d.waiting + d.running - getJobLimit t))
    (hw : ∀ u, (s'.queue.jobSet.countP (·.type = u) : Int) =
      if u = t then d.waiting else s.queue.jobSet.countP (·.type = u))
    (hr : ∀ u, (s'.progress.countP (·.type = u) : Int) =
      if u = t then d.running else s.progress.countP (·.type = u))
    (ht : (s'.queue.semaphore + s'.acquired : Int) = s.queue.semaphore + s.acquired -
      ((s.queue.jobData t).waiting - (s.queue.jobData t).deferred) + (d.waiting - d.deferred)) :
    s'.Counts where
  limit u := by
    rw [hq, jobData_setJobTypeData]
    split_ifs with hu
    · exact hu ▸ hl
    · exact h.limit u
  deferred u := by
    rw [hq, jobData_setJobTypeData]
    split_ifs with hu
    · exact hu ▸ hd
    · exact h.deferred u
  waiting u := by
    rw [hq, jobData_setJobTypeData, hw, ← h.waiting u, apply_ite JobTypeData.waiting]
  running u := by
    rw [hq, jobData_setJobTypeData, hr, ← h.running u, apply_ite JobTypeData.running]
  tasks := by
    rw [hq, sum_setJobTypeData s.queue t d fun d => d.waiting - d.deferred, ht, h.tasks]

namespace System.Inv

variable {s : System F}

theorem init : Inv ({} : System F) where
  limit t := getJobLimit_nonneg t
  deferred t := by simp [getJobLimit_nonneg t]
  waiting _ := rfl
  running _ := rfl
  tasks := by simp
  sorted := .nil
  limited := nofun
  indexed := nofun
  distinct := .nil
  conserved := .nil
  handed := nofun

section

variable (h : s.Inv)

include h

theorem added_of_mem (hj : job ∈ s.queue.jobSet) : job ∈ s.added :=
  h.conserved.mem_iff.mpr (mem_append_left _ hj)

theorem added_of_progress (hj : job ∈ s.progress) : job ∈ s.added :=
  h.conserved.mem_iff.mpr (mem_append_right _ (h.handed job hj))

theorem waiting_pos (hj : job ∈ s.queue.jobSet) : 0 < (s.queue.jobData job.type).waiting := by
  have : 0 < s.queue.jobSet.countP (·.type = job.type) :=
    countP_pos_iff.mpr ⟨job, hj, by simp⟩
  rw [h.waiting]
  omega

theorem valid (hj : job ∈ s.added) : job.type ≠ .jtINVALID := by
  intro ht
  have := h.limited job hj
  rw [ht] at this
  exact absurd this (by decide)

theorem nextJob_fresh (t : JobType) (name : String) (func : F) (hj : j ∈ s.queue.jobSet) :
    j.index ≠ (s.queue.nextJob t name func).index := by
  have := h.indexed j (h.added_of_mem hj)
  simp only [nextJob]
  omega

theorem add (t : JobType) (name : String) (func : F) (hl : 0 < getJobLimit t) :
    Inv { s with
      queue := (s.queue.addRefCountedJob t name func).2
      added := s.queue.nextJob t name func :: s.added } := by
  have ht : t ≠ .jtINVALID := fun ht => absurd (ht ▸ hl) (by decide)
  have hp := insert_perm fun j => h.nextJob_fresh t name func
  rw [addRefCountedJob_eq ht]
  have ⟨n, m, hq, hnm⟩ := queueJob_eq { s.queue with
    lastJob := s.queue.lastJob + 1
    jobSet := insert (s.queue.nextJob t name func) s.queue.jobSet } (s.queue.nextJob t name func)
  rw [hq]
  simp only at hnm
  have hd := h.deferred (s.queue.nextJob t name func).type
  refine { toCounts := h.update rfl (h.limit t) ?_ ?_ ?_ ?_, sorted := insert_sorted h.sorted,
           limited := ?_, indexed := ?_, distinct := ?_, conserved := ?_, handed := h.handed }
  case refine_1 =>
    simp only
    omega
  case refine_2 =>
    intro u
    refine (congrArg Nat.cast (hp.countP_eq _)).trans ((countP_cons_type ..).trans ?_)
    rw [h.waiting]
  case refine_3 =>
    intro u
    split_ifs with hu
    · exact hu ▸ (h.running u).symm
    · rfl
  case refine_4 =>
    simp only [setJobTypeData, nextJob]
    omega
  case refine_5 => exact forall_mem_cons.mpr ⟨hl, h.limited⟩
  case refine_6 =>
    exact forall_mem_cons.mpr ⟨le_rfl, fun j hj => (h.indexed j hj).trans (Nat.le_succ _)⟩
  case refine_7 =>
    refine nodup_cons.mpr ⟨fun hm => ?_, h.distinct⟩
    have ⟨j, hj, he⟩ := mem_map.mp hm
    have := h.indexed j hj
    simp only [nextJob] at he
    omega
  case refine_8 => exact .trans (.cons _ h.conserved) (hp.append_right _).symm

theorem acquire (hs : 0 < s.queue.semaphore) :
    Inv { s with
      queue := { s.queue with semaphore := s.queue.semaphore - 1 }
      acquired := s.acquired + 1 } :=
  { h with
    tasks := by
      rw [← h.tasks]
      push_cast [Nat.cast_sub hs]
      ring }

theorem enter (ha : 0 < s.acquired) (he : processTask.enter s.queue = some (job, q)) :
    Inv { s with
      queue := q
      acquired := s.acquired - 1
      progress := job :: s.progress
      handed := job :: s.handed } := by
  obtain ⟨l, r, ht, rfl⟩ := enter_eq_some he
  have hp : s.queue.jobSet.Perm (job :: (l ++ r)) := ht.split ▸ perm_middle
  have hb := ht.below
  have hd := h.deferred job.type
  refine { toCounts := h.update rfl ?_ ?_ ?_ ?_ ?_, sorted := ?_, limited := h.limited,
           indexed := h.indexed, distinct := h.distinct, conserved := ?_, handed := ?_ }
  case refine_1 =>
    simp only
    omega
  case refine_2 =>
    simp only
    omega
  case refine_3 =>
    intro u
    have hc := countP_cons_type job (l ++ r) u
    have hw := h.waiting u
    rw [hp.countP_eq, hc] at hw
    split_ifs at hw ⊢ with hu
    · subst hu
      simp only [setJobTypeData]
      omega
    · rw [hp.countP_eq, hc, if_neg hu]
      rfl
  case refine_4 =>
    intro u
    refine (countP_cons_type ..).trans (if_congr Iff.rfl ?_ rfl)
    rw [h.running job.type]
  case refine_5 =>
    simp only [setJobTypeData]
    omega
  case refine_6 =>
    have hs := h.sorted
    rw [ht.split] at hs
    exact hs.sublist ((sublist_cons_self job r).append_left l)
  case refine_7 =>
    refine h.conserved.trans ((hp.append_right _).trans ?_)
    exact perm_middle.symm
  case refine_8 =>
    refine forall_mem_cons.mpr ⟨mem_cons_self, fun j hj => ?_⟩
    exact mem_cons_of_mem _ (h.handed j hj)

theorem leave (hs : s.progress = l ++ job :: r) (he : processTask.leave s.queue job.type = some q) :
    Inv { s with queue := q, progress := l ++ r } := by
  have hp : s.progress.Perm (job :: (l ++ r)) := hs ▸ perm_middle
  have hd := h.deferred job.type
  have hl := h.limit job.type
  have hr (u : JobType) : ((l ++ r).countP (·.type = u) : Int) = if u = job.type then
      (s.queue.jobData job.type).running - 1 else s.progress.countP (·.type = u) := by
    have hc := countP_cons_type job (l ++ r) u
    have hr := h.running u
    rw [hp.countP_eq, hc] at hr
    split_ifs at hr ⊢ with hu
    · subst hu
      omega
    · rw [hp.countP_eq, hc, if_neg hu]
  have hw (u : JobType) : (s.queue.jobSet.countP (·.type = u) : Int) = if u = job.type then
      (s.queue.jobData job.type).waiting else s.queue.jobSet.countP (·.type = u) := by
    split_ifs with hu
    · rw [h.waiting, hu]
    · rfl
  have hm : ∀ j ∈ l ++ r, j ∈ s.handed := fun j hj =>
    h.handed j (hp.mem_iff.mpr (mem_cons_of_mem _ hj))
  obtain ⟨hq, rfl⟩ | ⟨hq, rfl⟩ := leave_eq_some he
  case inl =>
    refine { h with toCounts := h.update rfl ?_ ?_ hw hr ?_, handed := hm } <;>
      simp only [setJobTypeData] <;> omega
  case inr =>
    refine { h with toCounts := h.update rfl ?_ ?_ hw hr ?_, handed := hm } <;>
      simp only [setJobTypeData] <;> omega

theorem exists_runnable (ha : 0 < s.queue.semaphore + s.acquired) :
    ∃ job ∈ s.queue.jobSet, (s.queue.jobData job.type).running < getJobLimit job.type := by
  have ⟨t, ht⟩ : ∃ t, 0 < (s.queue.jobData t).waiting - (s.queue.jobData t).deferred := by
    by_contra! hn
    have := Finset.sum_nonpos fun t (_ : t ∈ Finset.univ) => hn t
    rw [← h.tasks] at this
    omega
  have hw := h.waiting t
  have hd := h.deferred t
  have hc : 0 < s.queue.jobSet.countP (·.type = t) := by omega
  obtain ⟨job, hj, rfl⟩ : ∃ job ∈ s.queue.jobSet, job.type = t := by
    simpa using countP_pos_iff.mp hc
  exact ⟨job, hj, by omega⟩

theorem enters (ha : 0 < s.acquired) :
    ∃ job q l r, (processTask.enter s.queue = some (job, q)) ∧ s.queue.Takes job l r := by
  have ⟨_, hj, hb⟩ := h.exists_runnable (Nat.add_pos_right _ ha)
  have hs := getNextJob.search_isSome (fun j _ => h.limit j.type) (fun j => h.waiting_pos) hj hb
  have ⟨⟨job, jobs⟩, hs⟩ := Option.isSome_iff_exists.mp hs
  obtain ⟨l, r, hl, -, -, -⟩ := getNextJob.search_eq_some hs
  have hv := h.valid (h.added_of_mem (hl ▸ mem_append_right l mem_cons_self))
  have he : ∃ q, processTask.enter s.queue = some (job, q) := by
    simp [processTask.enter, getNextJob, hs, hv, guard]
  have ⟨q, he⟩ := he
  have ⟨l, r, ht, _⟩ := enter_eq_some he
  exact ⟨job, q, l, r, he, ht⟩

theorem leaves (hj : job ∈ s.progress) : ∃ q, processTask.leave s.queue job.type = some q := by
  have hv := h.valid (h.added_of_progress hj)
  have hd := h.deferred job.type
  have hq : ∃ q, finishJob.queueDeferred s.queue job.type = some q := by
    rw [finishJob.queueDeferred, getJobTypeData]
    split_ifs
    · exact ⟨_, rfl⟩
    · omega
    · exact ⟨_, rfl⟩
  have ⟨_, hq⟩ := hq
  simp [processTask.leave, finishJob, hq, hv, guard]

theorem drained (hs : s.queue.semaphore + s.acquired = 0) (hp : s.progress = []) :
    s.queue.jobSet = [] := by
  by_contra hj
  have ⟨job, hj⟩ := exists_mem_of_ne_nil _ hj
  have hl := h.limited job (h.added_of_mem hj)
  have hw := h.waiting_pos hj
  have hd := h.deferred job.type
  have hr := h.running job.type
  rw [hp] at hr
  -- No task is signalled for the job, so that it is deferred and its type at its limit.
  have ht : ∀ t ∈ Finset.univ, 0 ≤ (s.queue.jobData t).waiting - (s.queue.jobData t).deferred := by
    intro t _
    have := h.deferred t
    have := h.limit t
    have := h.waiting t
    omega
  have hz : ∑ t, ((s.queue.jobData t).waiting - (s.queue.jobData t).deferred) = 0 := by
    rw [← h.tasks]
    omega
  have := (Finset.sum_eq_zero_iff_of_nonneg ht).mp hz job.type (Finset.mem_univ _)
  simp only [countP_nil, Nat.cast_zero] at hr
  omega

end

end System.Inv

theorem Reachable.inv (h : Reachable s) : s.Inv := by
  induction h
  case init => exact .init
  case step hs ih =>
    cases hs
    case add t name func hl => exact ih.add t name func hl
    case acquire hs => exact ih.acquire hs
    case enter ha he => exact ih.enter ha he
    case leave hp he => exact ih.leave hp he

theorem Reachable.jobs_exact {s : System F} (h : Reachable s) : s.Exact where
  limit := h.inv.limit
  deferred := h.inv.deferred
  tasks := h.inv.tasks
  enters ha := by
    have ⟨job, q, l, r, he, ht⟩ := h.inv.enters ha
    refine ⟨job, q, he, ht.split ▸ mem_append_right l mem_cons_self, ht.below, ?_⟩
    intro j hj hb
    have hs := h.inv.sorted
    rw [ht.split] at hj hs
    obtain hj | hj := mem_append.mp hj
    · exact absurd hb (ht.first j hj)
    · obtain rfl | hj := mem_cons.mp hj
      · exact .inl rfl
      · exact .inr ((pairwise_cons.mp (pairwise_append.mp hs).2.1).1 j hj)
  leaves _ hj := h.inv.leaves hj
  distinct := h.inv.distinct.of_map _
  handed := h.inv.conserved
  drained := h.inv.drained

-- Two jobs of a type with limit one: the first is in progress and the second is deferred.
theorem jobs_exact_two_packs : ∃ s : System Unit, (s.progress.length = 1) ∧
    ((s.queue.jobData .jtPACK).deferred = 1) ∧ s.Exact := by
  refine ⟨_, ?_, ?_, Reachable.jobs_exact (.step (.step (.step (.step .init
    (.add .jtPACK "first" () (by decide))) (.add .jtPACK "second" () (by decide)))
    (.acquire (by decide))) (.enter (by decide) rfl))⟩
  · rfl
  · rfl

end JobQueue
