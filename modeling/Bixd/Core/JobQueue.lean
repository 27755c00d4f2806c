import Mathlib

-- The position of a job type is its priority: earlier types have lower priority than later ones.
inductive JobType
  | jtINVALID
  | jtPACK
  | jtPUBOLDLEDGER
  | jtVALIDATION_ut
  | jtTRANSACTION_l
  | jtREPLAY_REQ
  | jtLEDGER_REQ
  | jtPROPOSAL_ut
  | jtREPLAY_TASK
  | jtLEDGER_DATA
  | jtCLIENT
  | jtRPC
  | jtUPDATE_PF
  | jtTRANSACTION
  | jtBATCH
  | jtADVANCE
  | jtPUBLEDGER
  | jtTXN_DATA
  | jtWAL
  | jtVALIDATION_t
  | jtWRITE
  | jtACCEPT
  | jtPROPOSAL_t
  | jtSWEEP
  | jtNETOP_CLUSTER
  | jtNETOP_TIMER
  | jtADMIN
  | jtPEER
  | jtDISK
  | jtTXN_PROC
  | jtOB_SETUP
  | jtPATH_FIND
  | jtHO_READ
  | jtHO_WRITE
  | jtGENERIC
  | jtNS_SYNC_READ
  | jtNS_ASYNC_READ
  | jtNS_WRITE
  deriving DecidableEq, Repr

instance : Fintype JobType :=
  .ofList ((List.range 38).map .ofNat) fun t => by cases t <;> decide

instance : LT JobType where
  lt a b := a.ctorIdx < b.ctorIdx

instance (a b : JobType) : Decidable (a < b) :=
  inferInstanceAs (Decidable (a.ctorIdx < b.ctorIdx))

namespace JobTypes

def maxLimit : Int :=
  2 ^ 31 - 1

-- How many jobs of a type may run at a time. The types from `jtPEER` on are not dispatched by the
-- queue.
def limit : JobType → Int
  | .jtPACK => 1
  | .jtPUBOLDLEDGER => 2
  | .jtVALIDATION_ut => maxLimit
  | .jtTRANSACTION_l => maxLimit
  | .jtREPLAY_REQ => 10
  | .jtLEDGER_REQ => 2
  | .jtPROPOSAL_ut => maxLimit
  | .jtREPLAY_TASK => maxLimit
  | .jtLEDGER_DATA => 2
  | .jtCLIENT => maxLimit
  | .jtRPC => maxLimit
  | .jtUPDATE_PF => maxLimit
  | .jtTRANSACTION => maxLimit
  | .jtBATCH => maxLimit
  | .jtADVANCE => maxLimit
  | .jtPUBLEDGER => maxLimit
  | .jtTXN_DATA => 1
  | .jtWAL => maxLimit
  | .jtVALIDATION_t => maxLimit
  | .jtWRITE => maxLimit
  | .jtACCEPT => maxLimit
  | .jtPROPOSAL_t => maxLimit
  | .jtSWEEP => maxLimit
  | .jtNETOP_CLUSTER => 1
  | .jtNETOP_TIMER => 1
  | .jtADMIN => maxLimit
  | _ => 0

end JobTypes

-- `F` is the type of what a job runs.
structure Job (F : Type) where
  type  : JobType
  index : Nat
  name  : String
  func  : F

-- The order of the job set: higher priority first, then the job that was added first.
def Job.lt {F : Type} (i j : Job F) : Bool :=
  if i.type < j.type then false
  else if j.type < i.type then true
  else i.index < j.index

structure JobTypeData where
  waiting  : Int := 0
  running  : Int := 0
  deferred : Int := 0

-- The semaphore is that of the workers: the tasks that were signalled and not yet acquired.
structure JobQueue (F : Type) where
  lastJob      : Nat := 0
  jobSet       : List (Job F) := []
  jobData      : JobType → JobTypeData := fun _ => {}
  processCount : Int := 0
  semaphore    : Nat := 0

namespace JobQueue

variable {F : Type}

def getJobLimit (type : JobType) : Int :=
  JobTypes.limit type

abbrev getJobTypeData (q : JobQueue F) (type : JobType) : JobTypeData :=
  q.jobData type

def setJobTypeData (q : JobQueue F) (type : JobType) (data : JobTypeData) : JobQueue F :=
  { q with jobData := Function.update q.jobData type data }

-- `Workers::addTask`
def addTask (q : JobQueue F) : JobQueue F :=
  { q with semaphore := q.semaphore + 1 }

-- `std::set::insert`
def insert (job : Job F) : List (Job F) → List (Job F)
  | [] => [job]
  | j :: jobs =>
    if job.lt j then job :: j :: jobs
    else if j.lt job then j :: insert job jobs
    else j :: jobs

def queueJob (q : JobQueue F) (job : Job F) : JobQueue F :=
  let data := q.getJobTypeData job.type
  if data.waiting + data.running < getJobLimit job.type then
    q.addTask.setJobTypeData job.type { data with waiting := data.waiting + 1 }
  else
    q.setJobTypeData job.type
      { data with waiting := data.waiting + 1, deferred := data.deferred + 1 }

def addRefCountedJob (q : JobQueue F) (type : JobType) (name : String) (func : F) :
    Bool × JobQueue F :=
  -- There is no data for an invalid type.
  if type = .jtINVALID then (false, q)
  else
    let lastJob := q.lastJob + 1
    let job := { type, index := lastJob, name, func : Job F }
    (true, queueJob { q with lastJob, jobSet := insert job q.jobSet } job)

-- The loop over the job set: the job that is taken and what remains of the set. It is `none` where
-- one of the assertions fails.
def getNextJob.search (q : JobQueue F) : List (Job F) → Option (Job F × List (Job F))
  | [] => none
  | job :: jobs =>
    let data := q.getJobTypeData job.type
    if data.running ≤ getJobLimit job.type then
      if data.running < getJobLimit job.type then
        if data.waiting > 0 then some (job, jobs) else none
      else (search q jobs).map (.map id (job :: ·))
    else none

def getNextJob (q : JobQueue F) : Option (Job F × JobQueue F) := do
  let (job, jobSet) ← getNextJob.search q q.jobSet
  guard (job.type ≠ .jtINVALID)
  let data := q.getJobTypeData job.type
  return (job, { q with jobSet }.setJobTypeData job.type
    { data with waiting := data.waiting - 1, running := data.running + 1 })

-- The part of `finishJob` that queues a deferred task if possible.
def finishJob.queueDeferred (q : JobQueue F) (type : JobType) : Option (JobQueue F) :=
  let data := q.getJobTypeData type
  if data.deferred > 0 then
    if data.running + data.waiting ≥ getJobLimit type then
      some (q.addTask.setJobTypeData type { data with deferred := data.deferred - 1 })
    else none
  else some q

def finishJob (q : JobQueue F) (type : JobType) : Option (JobQueue F) := do
  guard (type ≠ .jtINVALID)
  let q ← finishJob.queueDeferred q type
  let data := q.getJobTypeData type
  return q.setJobTypeData type { data with running := data.running - 1 }

-- The critical section of `processTask` before the job runs.
def processTask.enter (q : JobQueue F) : Option (Job F × JobQueue F) := do
  let (job, q) ← q.getNextJob
  return (job, { q with processCount := q.processCount + 1 })

-- The critical section of `processTask` after the job has run.
def processTask.leave (q : JobQueue F) (type : JobType) : Option (JobQueue F) := do
  let q ← q.finishJob type
  return { q with processCount := q.processCount - 1 }

-- The queue and its workers. A task is acquired when a worker has passed the semaphore, in progress
-- from `getNextJob` to `finishJob`. The last two fields record the jobs that were added and those
-- that were handed to a task.
structure System (F : Type) where
  queue    : JobQueue F := {}
  acquired : Nat := 0
  progress : List (Job F) := []
  added    : List (Job F) := []
  handed   : List (Job F) := []

-- The job that the next call of `addRefCountedJob` makes.
def nextJob (q : JobQueue F) (type : JobType) (name : String) (func : F) : Job F :=
  { type, index := q.lastJob + 1, name, func }

inductive Step : System F → System F → Prop
  | add {s : System F} (type : JobType) (name : String) (func : F) :
    (0 < getJobLimit type) →
    Step s { s with
      queue := (s.queue.addRefCountedJob type name func).2
      added := s.queue.nextJob type name func :: s.added }
  | acquire {s : System F} :
    (0 < s.queue.semaphore) →
    Step s { s with
      queue := { s.queue with semaphore := s.queue.semaphore - 1 }
      acquired := s.acquired + 1 }
  | enter {s : System F} {job : Job F} {q : JobQueue F} :
    (0 < s.acquired) →
    (processTask.enter s.queue = some (job, q)) →
    Step s { s with
      queue := q
      acquired := s.acquired - 1
      progress := job :: s.progress
      handed := job :: s.handed }
  | leave {s : System F} {l r : List (Job F)} {job : Job F} {q : JobQueue F} :
    (s.progress = l ++ job :: r) →
    (processTask.leave s.queue job.type = some q) →
    Step s { s with queue := q, progress := l ++ r }

-- What holds between the critical sections: no type exceeds its limit and the jobs above it are
-- deferred, there is a task for each waiting job that is not deferred, a task finds the first job in
-- the order of the set whose type is below its limit and can finish its job, each job that was added
-- is either waiting or was handed to one task, and none waits when there are no tasks.
structure System.Exact (s : System F) : Prop where
  limit    : ∀ t, (s.queue.jobData t).running ≤ getJobLimit t
  deferred : ∀ t, (s.queue.jobData t).deferred =
    max 0 ((s.queue.jobData t).waiting + (s.queue.jobData t).running - getJobLimit t)
  tasks    : (s.queue.semaphore + s.acquired : Int) =
    ∑ t, ((s.queue.jobData t).waiting - (s.queue.jobData t).deferred)
  enters   : 0 < s.acquired → ∃ job q, (processTask.enter s.queue = some (job, q)) ∧
    (job ∈ s.queue.jobSet) ∧ ((s.queue.jobData job.type).running < getJobLimit job.type) ∧
    ∀ j ∈ s.queue.jobSet, (s.queue.jobData j.type).running < getJobLimit j.type → j = job ∨ job.lt j
  leaves   : ∀ job ∈ s.progress, ∃ q, processTask.leave s.queue job.type = some q
  distinct : s.added.Nodup
  handed   : s.added.Perm (s.queue.jobSet ++ s.handed)
  drained  : s.queue.semaphore + s.acquired = 0 → s.progress = [] → s.queue.jobSet = []

inductive Reachable : System F → Prop
  | init : Reachable {}
  | step {s s' : System F} : Reachable s → Step s s' → Reachable s'

end JobQueue
