import KvmUtils.Lib.CFormat
import KvmUtils.IpiBench.Bench

/-!
# What the benchmarks print

`ipi_bench_report_single` and `ipi_bench_report_all` print a line for one
worker, from the fields of its `bench_args` that they have read.
`ipi_bench_mesh` and `ipi_bench_all` end with a line for the throughput.

The fields and `elapsed` are of type `unsigned long`, `loops`, `pairs` and
`broadcasts` of type `int`, and `num_online_cpus` is an `unsigned int`.  The
kernel is built such that a signed product wraps around.
-/

namespace KvmUtils.IpiBench

/-- The integer is a value of type `int`. -/
def IsInt (x : Int) : Prop := - 2 ^ 31 ≤ x ∧ x < 2 ^ 31

instance (x : Int) : Decidable (IsInt x) := inferInstanceAs (Decidable (_ ∧ _))

/-- An `int` as an operand beside an `unsigned long`. -/
def toWord (x : Int) : UInt64 := (Int32.ofInt x).toInt64.toUInt64

/-- What a report that has read `fields` has read of the field `f`. -/
def readOf (task : Task) (fields : List UInt64) (f : Field) : UInt64 :=
  fields.getD ((reportFields task).idxOf f) 0

/-- The correction of `elapsed` by the run delay. -/
def reportElapsed (start finish runDelay : UInt64) : UInt64 :=
  let elapsed := finish - start
  if elapsed > runDelay then elapsed - runDelay else elapsed

/-- The numbers of a report.  The times are divided by 1000, and the averages
are in nanoseconds.  `ipi` is the `ipitime` with its average. -/
structure Line where
  forked : UInt64
  start : UInt64
  finish : UInt64
  elapsed : UInt64
  runDelay : UInt64
  avgCall : UInt64
  ipi : Option (UInt64 × UInt64)
  deriving DecidableEq, Repr

/-- The line of a report, or `none` for `too many loops`. -/
def report (p : Params) (task : Task) (fields : List UInt64) : Option Line :=
  let forked := readOf task fields .forked
  let start := readOf task fields .start
  let finish := readOf task fields .finish
  let ipitime := readOf task fields .ipitime
  let runDelay := readOf task fields .runDelay
  let elapsed := reportElapsed start finish runDelay
  if finish = 0 then none
  else some {
    forked := forked / 1000
    start := start / 1000
    finish := finish / 1000
    elapsed := elapsed / 1000
    runDelay := runDelay / 1000
    avgCall := elapsed / toWord p.loops
    ipi :=
      match task with
      | .single => some (ipitime / 1000, ipitime / toWord p.loops)
      | .many => none }

def reportSingle (p : Params) (fields : List UInt64) : Option Line := report p .single fields

def reportAll (p : Params) (fields : List UInt64) : Option Line := report p .many fields

/-- The throughput of `ipi_bench_mesh`: `pairs * loops` is a product of two
`int`. -/
def meshThroughput (pairs loops : Int) (elapsed : UInt64) : UInt64 :=
  (Int32.ofInt pairs * Int32.ofInt loops).toInt64.toUInt64 * 1000000000 / elapsed

/-- The throughput of `ipi_bench_all`: the product up to `loops` is one of
`unsigned int`. -/
def allThroughput (broadcasts : Int) (numOnlineCpus : Nat) (loops : Int) (elapsed : UInt64) :
    UInt64 :=
  ((Int32.ofInt broadcasts).toUInt32 * (UInt32.ofNat numOnlineCpus - 1) *
    (Int32.ofInt loops).toUInt32).toUInt64 * 1000000000 / elapsed

section At

variable (jobs : List Job) (s : State)

/-- The main thread has read the fields of worker `w`, and its next step is
the report of them. -/
structure State.AtReport (w : Worker) (job : Job) (fields : List UInt64) : Prop where
  main : ∃ elapsed, s.main = .report elapsed w.2 fields
  own : w.1 = s.job
  get : jobs[s.job]? = some job
  entry : (w.2 : Int) < job.shouldRun
  full : fields.length = (reportFields job.task).length

/-- The main thread is through the reports of a benchmark that has read the
clock around its wait, and its next step is the line with the throughput. -/
structure State.AtThroughput (job : Job) (elapsed : UInt64) : Prop where
  main : ∃ i fields, s.main = .report elapsed i fields ∧ job.shouldRun ≤ i
  get : jobs[s.job]? = some job
  timed : job.timed = true

/-- What a step of the main thread does in its reports: it reads a field, it
ends the report of a worker, or it ends the reports. -/
inductive ReportMove (elapsed : UInt64) (i : Nat) (fields : List UInt64) : State → Prop where
  | read {job f} (hjob : jobs[s.job]? = some job) (hi : (i : Int) < job.shouldRun)
      (hf : (reportFields job.task)[fields.length]? = some f) :
      ReportMove elapsed i fields { s with
        main := .report elapsed i (fields ++ [(s.args (s.job, i)).field f]) }
  | line {job} (hjob : jobs[s.job]? = some job) (hi : (i : Int) < job.shouldRun)
      (hfull : (reportFields job.task).length ≤ fields.length) :
      ReportMove elapsed i fields { s with
        reports := s.reports ++ [⟨(s.job, i), elapsed, fields⟩]
        main := .report elapsed (i + 1) [] }
  | last {job} (hjob : jobs[s.job]? = some job) (hi : job.shouldRun ≤ i) :
      ReportMove elapsed i fields { s with ret := Function.update s.ret s.job 0, main := .free }

variable {jobs s}

theorem reportMove_of_mainStep {s' : State} {elapsed : UInt64} {i : Nat} {fields : List UInt64}
    (hmain : s.main = .report elapsed i fields) (hst : mainStep jobs s = some s') :
    ReportMove jobs s elapsed i fields s' := by
  simp only [mainStep, hmain] at hst
  split at hst
  · cases hst
  · rename_i job hjob
    split at hst
    · rename_i hi
      split at hst <;> rename_i hf <;> cases hst
      · exact .read hjob hi hf
      · exact .line hjob hi (List.getElem?_eq_none_iff.mp hf)
    · rename_i hi
      cases hst
      exact .last hjob (by omega)

end At

/-- A machine with two CPUs. -/
def twoCpus : Topology := ⟨2, fun _ => 0⟩

/-- The benchmarks between its CPUs. -/
def onePair (loops : Int) (options : UInt32) : Params := ⟨loops, 0, 1, 1, true, 1, true, options⟩

/-- `ipi_bench_self` until its worker is through the barrier. -/
def selfBarrierRun : List Event :=
  ([.main, .alloc true, .main, .build fun _ => 0, .launch true, .sample (0, 0) 1] : List Event) ++
    List.replicate 6 (.worker (0, 0))

end KvmUtils.IpiBench
