import Complementarity.Benchmark.Program
import Complementarity.Proofs.Checker
import Complementarity.Proofs.Completeness
import Complementarity.Proofs.Conversion
import Complementarity.Proofs.Generators

/-!
# The benchmark in exact arithmetic

A run of the benchmark program with rationals alone, on any source of random words and with any
stopwatch that returns what it times.  Each stage hands one invariant to the next:

* **one problem** — `trial_spec`: a problem that converts is solved as a solver of its own solves
  it, and the solution is accepted;
* **one family** — `Progress.HasSolved` holds after every problem (`advance_spec`), so the report
  counts each problem once (`reportOn_spec`);
* **all families** — `runWith_rational`: the program succeeds, and its reports cover what was drawn
  (`drawn`).

The solvers of a family are used again and again; that it makes no difference is
`Solver.solveSized_fst_congr`.
-/

namespace Complementarity.Benchmark

open Std.Do

set_option mvcgen.warning false

/-! ## Tallies -/

namespace Tally

/-- The number of solves that ended in a given way. -/
def ended (s : Tally) : Status → Nat
  | .trivialSolution => s.trivial
  | .nontrivialSolution => s.nontrivial
  | .noSolution => s.noSolution
  | .failedToConverge => s.failed

variable (s : Tally) (trial : Trial)

theorem ended_record (status : Status) :
    (s.record trial).ended status = s.ended status + if trial.status = status then 1 else 0 := by
  unfold record
  cases trial.status <;> cases status <;> rfl

theorem solves_record : (s.record trial).solves = s.solves + 1 := by
  unfold record
  cases trial.status <;> simp only [solves, count] <;> omega

theorem rejections_record :
    (s.record trial).rejections = s.rejections + if trial.accepted then 0 else 1 := rfl

end Tally

/-! ## Problems and reports -/

variable {env : Environment} {settings : Settings}

/-- A problem that the exact solver does not refuse. -/
structure Generated.IsUsable (g : Generated) : Prop where
  dim_pos : 0 < g.dim
  convert : convert ℚ g.data = .ok g.data.toRat

/-- How a solver of its own ends on a problem in exact arithmetic. -/
def Generated.statusAlone (env : Environment) (settings : Settings) (g : Generated) :
    Option Status :=
  ((Solver.withSettings ℚ env settings).solveSized g.data.toRat).1.toOption.map Outcome.status

/-- A positive definite problem is solved if the budget is sufficient. -/
theorem Generated.isSolved_statusAlone {g : Generated} (hdim : 0 < g.dim)
    (hm : g.data.toRat.m.IsPosDef) (husable : settings.isUsable = true)
    (hbudget : iterationBound g.dim ≤ settings.budget g.dim) :
    ∃ status, g.statusAlone env settings = some status ∧ status.isSolved = true := by
  have hsolve := (Solver.withSettings ℚ env settings).solveSized_fst g.data.toRat hdim husable
  have hray := g.data.toRat.status_run_ne_noSolution hm.noSignReversal.isStrictlySemimonotone
  exact ⟨_, congrArg (fun answer => answer.toOption.map Outcome.status) hsolve,
    g.data.toRat.isSolved_of_ne_noSolution hbudget (hray _ _ _ _)⟩

/-- A report that counts each of these problems once, by the way in which a solver of its own ends
on it, and that has nothing to complain of. -/
structure Report.AccountsFor (env : Environment) (settings : Settings) (r : Report)
    (problems : List Generated) : Prop where
  instances : r.instances = problems.length
  solves : r.exact.solves = problems.length
  ended : ∀ status, r.exact.ended status =
    problems.countP fun g => g.statusAlone env settings = some status
  rejections : r.rejections = 0
  disagreements : r.disagreements = []

namespace Report.AccountsFor

variable {r : Report} {problems : List Generated} (h : r.AccountsFor env settings problems)

include h

theorem record {g : Generated} {trial : Trial}
    (hstatus : g.statusAlone env settings = some trial.status) (haccepted : trial.accepted = true) :
    ({ r with instances := r.instances + 1, exact := r.exact.record trial } : Report).AccountsFor
      env settings (problems ++ [g]) := by
  refine ⟨?_, ?_, fun status => ?_, ?_, h.disagreements⟩
  · rw [List.length_append, ← h.instances]
    rfl
  · rw [Tally.solves_record, h.solves, List.length_append]
    rfl
  · rw [Tally.ended_record, h.ended status, List.countP_append, List.countP_singleton, hstatus]
    simp only [Option.some.injEq, decide_eq_true_eq]
  · have hrejections := h.rejections
    unfold Report.rejections at hrejections ⊢
    rw [Tally.rejections_record, haccepted]
    exact hrejections

theorem ended_eq_zero {status : Status}
    (hnone : ∀ g ∈ problems, g.statusAlone env settings ≠ some status) :
    r.exact.ended status = 0 := by
  rw [h.ended status, List.countP_eq_zero]
  intro g hg
  simpa using hnone g hg

/-- If all problems are solved, none is counted as anything else. -/
theorem unsolved_eq_zero (hsolved : ∀ g ∈ problems,
    ∃ status, g.statusAlone env settings = some status ∧ status.isSolved = true) :
    r.exact.noSolution = 0 ∧ r.exact.failed = 0 := by
  have hzero : ∀ status : Status, status.isSolved = false → r.exact.ended status = 0 := by
    intro status hstatus
    refine h.ended_eq_zero fun g hg hsome => ?_
    obtain ⟨other, hother, hsolved⟩ := hsolved g hg
    obtain rfl : other = status := Option.some.inj (hother.symm.trans hsome)
    rw [hstatus] at hsolved
    cases hsolved
  exact ⟨hzero .noSolution rfl, hzero .failedToConverge rfl⟩

end Report.AccountsFor

/-! ## One problem -/

variable {m : Type → Type} {ps : PostShape.{0}} [Monad m] [WPMonad m ps]

/-- A stopwatch that returns what it is asked to compute, whatever time it shows. -/
structure Stopwatch.IsHonest (watch : Stopwatch m) : Prop where
  time : ∀ {β : Type} (compute : Unit → β),
    ⦃⌜True⌝⦄ watch.time compute ⦃⇓ r => ⌜r.1 = compute ()⌝⦄

section Exceptions

variable {ε α : Type} {Q : α → Prop}

theorem mk_spec {x : m (Except ε α)} (h : ⦃⌜True⌝⦄ x ⦃⇓ r => ⌜∃ a, r = .ok a ∧ Q a⌝⦄) :
    ⦃⌜True⌝⦄ (ExceptT.mk x : ExceptT ε m α) ⦃⇓ a => ⌜Q a⌝⦄ := by
  refine SPred.entails.trans h ((wp x).mono _ _ ⟨fun r => ?_, ExceptConds.entails.refl _⟩)
  refine SPred.pure_elim' ?_
  rintro ⟨a, rfl, ha⟩
  exact SPred.pure_intro ha

theorem run_spec {x : ExceptT ε m α} (h : ⦃⌜True⌝⦄ x ⦃⇓ a => ⌜Q a⌝⦄) :
    ⦃⌜True⌝⦄ x.run ⦃⇓ r => ⌜∃ a, r = .ok a ∧ Q a⌝⦄ := by
  refine SPred.entails.trans h ((wp x.run).mono _ _ ⟨fun r => ?_, ExceptConds.entails.refl _⟩)
  cases r with
  | ok a => exact SPred.pure_mono fun ha => ⟨a, rfl, ha⟩
  | error e => exact SPred.pure_elim' False.elim

end Exceptions

variable {watch : Stopwatch m} {family : Family} {problems : List Generated} {p : Progress}
  {g : Generated}

/-- **One problem.**  It is solved as a solver of its own solves it, and the solution is
accepted. -/
theorem trial_spec (hwatch : watch.IsHonest) (hg : g.IsUsable) {s : Solver ℚ}
    (hsettings : s.settings = settings) (hdiagnostics : s.diagnostics = .ofEnvironment env)
    (husable : settings.isUsable = true) (name : String) :
    ⦃⌜True⌝⦄ trial watch name s (fun _ => 0) g
    ⦃⇓ r => ⌜∃ result, r = .ok result ∧ g.statusAlone env settings = some result.1.status ∧
      result.1.accepted = true ∧ result.2.settings = settings ∧
      result.2.diagnostics = .ofEnvironment env⌝⦄ := by
  obtain ⟨o, next, hverify, hsolve, hnext⟩ :=
    s.exists_verifySized g.data.toRat hg.dim_pos (by rwa [hsettings]) (le_refl 0)
  have hstatus : g.statusAlone env settings = some o.status := by
    have halone : (s.solveSized g.data.toRat).1 =
        ((Solver.withSettings ℚ env settings).solveSized g.data.toRat).1 :=
      Solver.solveSized_fst_congr hsettings hdiagnostics g.data.toRat
    rw [Generated.statusAlone, ← halone, hsolve]
    rfl
  have htime := @hwatch.time
  unfold trial
  rw [hg.convert]
  mvcgen [htime]
  rename_i r hr
  mpure_intro
  obtain ⟨answer, elapsed⟩ := r
  obtain rfl : answer = _ := hr.trans hverify
  exact ⟨_, rfl, hstatus, rfl, hnext.1.trans hsettings, hnext.2.trans hdiagnostics⟩

/-! ## One family -/

/-- A stage of a benchmark with rationals alone: these problems of the family have been solved. -/
structure Progress.HasSolved (env : Environment) (settings : Settings) (family : Family)
    (p : Progress) (problems : List Generated) : Prop where
  name : p.report.family = family.name
  settings_eq : p.exact.settings = settings
  diagnostics_eq : p.exact.diagnostics = .ofEnvironment env
  accounts : p.report.AccountsFor env settings problems

theorem hasSolved_start (family : Family) (env : Environment) (settings : Settings) :
    (Progress.start family env settings).HasSolved env settings family [] :=
  ⟨rfl, rfl, rfl, rfl, rfl, fun status => by cases status <;> rfl, rfl, rfl⟩

theorem solveFloat_spec (watch : Stopwatch m) (p : Progress) (g : Generated) :
    ⦃⌜True⌝⦄ p.solveFloat watch .rational g ⦃⇓ r => ⌜∃ q, r = .ok q ∧ q = (p, none)⌝⦄ := by
  unfold Progress.solveFloat
  mvcgen
  mpure_intro
  exact ⟨_, rfl, rfl⟩

theorem solveExact_spec (hwatch : watch.IsHonest) (hg : g.IsUsable)
    (husable : settings.isUsable = true) (hsettings : p.exact.settings = settings)
    (hdiagnostics : p.exact.diagnostics = .ofEnvironment env) :
    ⦃⌜True⌝⦄ p.solveExact watch .rational g
    ⦃⇓ r => ⌜∃ q, r = .ok q ∧ ∃ t next,
      q = ({ p with exact := next, report.exact := p.report.exact.record t }, some t.status) ∧
      g.statusAlone env settings = some t.status ∧ t.accepted = true ∧
      next.settings = settings ∧ next.diagnostics = .ofEnvironment env⌝⦄ := by
  have htrial := trial_spec hwatch hg hsettings hdiagnostics husable "rational"
  unfold Progress.solveExact
  mvcgen [htrial]
  rename_i hr
  obtain ⟨⟨t, next⟩, rfl, hfacts⟩ := hr
  mpure_intro
  exact ⟨_, rfl, t, next, rfl, hfacts⟩

/-- One more problem. -/
theorem advance_spec (hwatch : watch.IsHonest) (hg : g.IsUsable)
    (husable : settings.isUsable = true) (hp : p.HasSolved env settings family problems) :
    ⦃⌜True⌝⦄ p.advance watch .rational g
    ⦃⇓ r => ⌜∃ next, r = .ok next ∧ next.HasSolved env settings family (problems ++ [g])⌝⦄ := by
  refine run_spec ?_
  have hfloat := fun q => mk_spec (solveFloat_spec watch q g)
  have hexact := mk_spec (solveExact_spec
    (p := { p with report.instances := p.report.instances + 1 })
    hwatch hg husable hp.settings_eq hp.diagnostics_eq)
  mvcgen [hfloat]
  rename_i hr
  subst hr
  mvcgen [hexact]
  rename_i hr
  obtain ⟨t, next, rfl, hstatus, haccepted, hsettings, hdiagnostics⟩ := hr
  mpure_intro
  exact ⟨hp.name, hsettings, hdiagnostics, hp.accounts.record hstatus haccepted⟩

/-- More problems, by induction on them. -/
theorem foldlM_advance_spec (hwatch : watch.IsHonest) (husable : settings.isUsable = true)
    {rest : List Generated} (hrest : ∀ g ∈ rest, g.IsUsable)
    (hp : p.HasSolved env settings family problems) :
    ⦃⌜True⌝⦄ (rest.foldlM (fun p g => ExceptT.mk (p.advance watch .rational g)) p :
      ExceptT Failure m Progress)
    ⦃⇓ final => ⌜final.HasSolved env settings family (problems ++ rest)⌝⦄ := by
  induction rest generalizing p problems with
  | nil =>
    rw [List.foldlM_nil, List.append_nil]
    mvcgen
  | cons g rest ih =>
    obtain ⟨hg, hrest⟩ := List.forall_mem_cons.1 hrest
    have hadvance := mk_spec (advance_spec hwatch hg husable hp)
    rw [List.foldlM_cons]
    refine Triple.bind _ _ hadvance fun next => SPred.pure_elim' fun hnext => ?_
    have hfinal := ih hrest hnext
    rw [List.append_assoc] at hfinal
    exact hfinal

/-- **One family.**  The report counts each problem once. -/
theorem reportOn_spec (env : Environment) {args : Arguments} (family : Family)
    (hwatch : watch.IsHonest)
    (hscalar : args.scalar = .rational) (husable : args.settings.isUsable = true)
    (hproblems : ∀ g ∈ problems, g.IsUsable) :
    ⦃⌜True⌝⦄ reportOn watch env args family problems
    ⦃⇓ r => ⌜∃ report, r = .ok report ∧ report.family = family.name ∧
      report.AccountsFor env args.settings problems⌝⦄ := by
  refine run_spec ?_
  have hfold := foldlM_advance_spec hwatch husable hproblems
    (hasSolved_start family env args.settings)
  rw [hscalar]
  mvcgen [-Spec.foldlM_list, hfold]
  rename_i final hfinal
  mpure_intro
  exact ⟨hfinal.name, hfinal.accounts⟩

/-! ## All families -/

/-- If nothing is rejected, the program succeeds. -/
theorem Arguments.transcript_none (a : Arguments) {reports : List Report}
    (h : ∀ r ∈ reports, r.rejections = 0) :
    a.transcript reports none =
      ⟨a.header ++ reports.flatMap Report.lines ++ closing, reports, none⟩ := by
  have hcount : reports.foldl (fun count report => count + report.rejections) 0 = 0 := by
    induction reports with
    | nil => rfl
    | cons r reports ih =>
      obtain ⟨hr, hreports⟩ := List.forall_mem_cons.1 h
      rw [List.foldl_cons, hr]
      exact ih hreports
  unfold transcript
  simp only [hcount, if_true]

/-- The problems of families that are drawn one after the other from one source. -/
def drawn {σ : Type} [Random.Source σ] (args : Arguments) :
    List Family → σ → List (Family × List Generated)
  | [], _ => []
  | family :: families, source =>
    let draw := (family.instances args.dim args.count).run source
    (family, draw.1) :: drawn args families draw.2

/-- A report on the problems of a family, all of which convert, and are solved if they are positive
definite and the budget is sufficient. -/
structure Report.Covers (env : Environment) (args : Arguments) (draw : Family × List Generated)
    (r : Report) : Prop extends r.AccountsFor env args.settings draw.2 where
  family_eq : r.family = draw.1.name
  length_eq : draw.2.length = draw.1.size args.dim args.count
  converts : ∀ g ∈ draw.2, convert ℚ g.data = .ok g.data.toRat
  solved : draw.1 = .positiveDefinite → iterationBound args.dim ≤ args.settings.budget args.dim →
    r.exact.noSolution = 0 ∧ r.exact.failed = 0

section Run

variable {args : Arguments}

/-- The members of a family can be solved. -/
theorem isUsable_of_member (hdim : 1 ≤ args.dim) (hsize : 16 * args.dim + 3 ≤ 2 ^ 53)
    (h : family.Member args.dim g) : g.IsUsable := by
  refine ⟨h.dim_pos hdim, convert_rat_of_height_lt g.data ?_⟩
  have hheight := h.height_le hdim
  omega

theorem covers_of_accountsFor (hdim : 1 ≤ args.dim) (hsize : 16 * args.dim + 3 ≤ 2 ^ 53)
    (husable : args.settings.isUsable = true) {r : Report} (hname : r.family = family.name)
    (haccounts : r.AccountsFor env args.settings problems)
    (hlength : problems.length = family.size args.dim args.count)
    (hmember : ∀ g ∈ problems, family.Member args.dim g) :
    r.Covers env args (family, problems) where
  toAccountsFor := haccounts
  family_eq := hname
  length_eq := hlength
  converts g hg := (isUsable_of_member hdim hsize (hmember g hg)).convert
  solved hfamily hbudget := by
    obtain rfl : family = .positiveDefinite := hfamily
    refine haccounts.unsolved_eq_zero fun g hg => ?_
    obtain ⟨hg, hm⟩ := (hmember g hg).isPosDef
    exact g.isSolved_statusAlone (hg ▸ hdim) hm husable (by rwa [hg])

theorem rejections_eq_zero {draws : List (Family × List Generated)} {reports : List Report}
    (h : List.Forall₂ (fun draw report => report.Covers env args draw) draws reports) :
    ∀ r ∈ reports, r.rejections = 0 := by
  induction h with
  | nil => simp
  | cons hcovers _ ih => exact List.forall_mem_cons.2 ⟨hcovers.rejections, ih⟩

variable {σ : Type} [Random.Source σ]

/-- The reports on several families, by induction on them. -/
theorem reportOnAll_spec (env : Environment) (hwatch : watch.IsHonest)
    (hscalar : args.scalar = .rational) (hdim : 1 ≤ args.dim) (hsize : 16 * args.dim + 3 ≤ 2 ^ 53)
    (husable : args.settings.isUsable = true) (families : List Family) (source : σ) :
    ⦃⌜True⌝⦄ reportOnAll watch env args families source
    ⦃⇓ r => ⌜r.2 = none ∧ List.Forall₂ (fun draw report => report.Covers env args draw)
      (drawn args families source) r.1⌝⦄ := by
  induction families generalizing source with
  | nil =>
    unfold reportOnAll
    mvcgen
    mpure_intro
    exact ⟨trivial, .nil⟩
  | cons family families ih =>
    cases hrun : (family.instances args.dim args.count).run source with
    | mk problems next =>
      obtain ⟨hlength, hmember⟩ := Family.of_run_instances hrun
      have hreport := reportOn_spec env family hwatch hscalar husable
        fun g hg => isUsable_of_member hdim hsize (hmember g hg)
      simp only [reportOnAll, drawn, hrun]
      mvcgen [hreport, ih]
      · rename_i hok
        obtain ⟨report, hok, -⟩ := hok
        cases hok
      · rename_i report _ hok rest hrest
        obtain ⟨_, hok, hname, haccounts⟩ := hok
        obtain rfl := Except.ok.inj hok
        mpure_intro
        exact ⟨hrest.1, .cons (covers_of_accountsFor hdim hsize husable hname haccounts hlength
          hmember) hrest.2⟩

/-- **The exact benchmark never rejects a solution.**  Whatever the source yields and whatever the
stopwatch shows, a run with rationals alone succeeds, and it has a report for every family: each
problem that is drawn converts and is counted once, as a solver of its own would have it, nothing is
rejected, and positive definite problems are solved if the budget is sufficient.  `run` is the case
of the source that belongs to the seed. -/
theorem runWith_rational (hwatch : watch.IsHonest) (env : Environment) (args : Arguments)
    (source : σ) (hscalar : args.scalar = .rational) (hdim : 1 ≤ args.dim)
    (hsize : 16 * args.dim + 3 ≤ 2 ^ 53) (hiter : args.maxIter ≠ some 0) :
    ⦃⌜True⌝⦄ runWith watch env args source
    ⦃⇓ t => ⌜t.exitCode = 0 ∧ t.lines = args.header ++ t.reports.flatMap Report.lines ++ closing ∧
      List.Forall₂ (fun draw report => report.Covers env args draw)
        (drawn args args.family.families source) t.reports⌝⦄ := by
  have husable : args.settings.isUsable = true := decide_eq_true hiter
  have hreports := reportOnAll_spec env hwatch hscalar hdim hsize husable
    args.family.families source
  unfold runWith
  mvcgen [hreports]
  · rename_i hzero
    omega
  · rename_i reports hreports
    mpure_intro
    obtain ⟨hfailure, hcovers⟩ := hreports
    rw [hfailure, args.transcript_none (rejections_eq_zero hcovers)]
    exact ⟨rfl, rfl, hcovers⟩

end Run

theorem isHonest_stopped : Stopwatch.stopped.IsHonest where
  time _ _ := rfl

/-- Three positive definite problems of dimension two, with four iterations each. -/
def threeDefinite : Arguments where
  family := .one .positiveDefinite
  dim := 2
  count := 3
  scalar := .rational
  maxIter := some 4

theorem run_threeDefinite :
    (run .stopped {} threeDefinite).run.exitCode = 0 ∧
      ∃ r, (run .stopped {} threeDefinite).run.reports = [r] ∧ r.instances = 3 ∧
        r.exact.solves = 3 ∧ r.rejections = 0 ∧ r.exact.noSolution = 0 ∧ r.exact.failed = 0 := by
  have hrun := runWith_rational isHonest_stopped {} threeDefinite
    (Random.ChaCha.ofSeed (UInt64.ofNat threeDefinite.seed)) rfl (by decide) (by decide) (by decide)
  obtain ⟨hcode, -, hreports⟩ :=
    Id.of_wp_run_eq (rfl : (run .stopped {} threeDefinite).run = _) _ hrun
  obtain ⟨r, rest, hcovers, hrest, hreports⟩ := List.forall₂_cons_left_iff.1 hreports
  obtain rfl := List.forall₂_nil_left_iff.1 hrest
  have hlength := hcovers.length_eq
  obtain ⟨hnone, hfailed⟩ := hcovers.solved rfl (by decide)
  exact ⟨hcode, r, hreports, hcovers.instances.trans hlength, hcovers.solves.trans hlength,
    hcovers.rejections, hnone, hfailed⟩

end Complementarity.Benchmark
