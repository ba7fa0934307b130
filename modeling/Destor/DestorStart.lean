/- digest: Start-up, options and shutdown of one invocation, and the simulation levels of a store. -/

import Destor.Basic

set_option autoImplicit false
set_option relaxedAutoImplicit false

namespace Destor

open Library.Outcome

/-- A word of a configuration line, as `sdssplitargs` returns it. -/
abbrev Word := List Char

def strcasecmp (a b : Word) : Bool := a.map Char.toLower == b.map Char.toLower

/-- The fields of `struct destor` that decide which files a run uses and how. -/
structure Settings where
  workingDirectory : Word
  simulationLevel : SimulationLevel
  backupRetentionTime : Int
deriving DecidableEq

/-- The values that `destor_start` sets before it loads the configuration. -/
def defaultSettings : Settings :=
  { workingDirectory := "/pmem/dedupDir".toList, simulationLevel := .no,
    backupRetentionTime := -1 }

/-- How a configuration line is understood outside the directives modelled here: the parser's
other directives accept a line or reject it, and `atoi` gives a word its number. -/
structure ConfigReader where
  accepts : List Word → Bool
  atoi : Word → Int

def levelOfWord (w : Word) : Option SimulationLevel :=
  if strcasecmp w "all".toList then some .all
  else if strcasecmp w "append".toList then some .append
  else if strcasecmp w "restore".toList then some .restore
  else if strcasecmp w "no".toList then some .no
  else none

/-- One line of `load_config_from_string`; `none` is the exit with a configuration error. -/
def loadLine (reader : ConfigReader) (s : Settings) (argv : List Word) : Option Settings :=
  match argv with
  | [name, value] =>
      if strcasecmp name "working-directory".toList then
        some { s with workingDirectory := value ++ ['/'] }
      else if strcasecmp name "simulation-level".toList then
        (levelOfWord value).map fun level => { s with simulationLevel := level }
      else if strcasecmp name "backup-retention-time".toList then
        some { s with backupRetentionTime := reader.atoi value }
      else if reader.accepts argv then some s else none
  | [] => some s
  | _ => if reader.accepts argv then some s else none

def loadConfigFromString (reader : ConfigReader) (s : Settings) (lines : List (List Word)) :
    Option Settings :=
  lines.foldlM (loadLine reader) s

/-- The fields of `destor.stat` that `destor_start` checks. -/
structure DestorStat where
  lastRetentionTime : Int
  lastLevel : SimulationLevel
deriving DecidableEq

/-- `check_simulation_level` exits. -/
def conflictingLevels (last current : SimulationLevel) : Bool :=
  (last.level ≤ SimulationLevel.restore.level && SimulationLevel.append.level ≤ current.level) ||
    (SimulationLevel.append.level ≤ last.level && current.level ≤ SimulationLevel.restore.level)

inductive JobKind where
  | backup
  | restore
  | makeTrace
deriving DecidableEq, Repr

inductive MainOption where
  | restore (revision : Int)
  | state
  | makeTrace
  | help
  | parameter (lines : List (List Word))
  | unknown

/-- One invocation of the program: the contents of `destor.config`, the options, whether a path
follows them, and whether the job runs to its end. -/
structure Invocation where
  config : List (List Word)
  options : List MainOption
  path : Bool
  finishes : Bool

/-- What a run that got to its job did: the job, the settings it ran with, and whether it
completed, that is, wrote `destor.stat`. -/
structure RunRecord (δ : Type) where
  job : JobKind
  dir : δ
  level : SimulationLevel
  completed : Bool
deriving DecidableEq

section Run

variable {δ : Type} [DecidableEq δ] (reader : ConfigReader) (resolve : Word → δ)

abbrev StatFiles (δ : Type) := δ → Option DestorStat

def destorStart (stats : StatFiles δ) (config : List (List Word)) : Option Settings := do
  let s ← loadConfigFromString reader defaultSettings config
  match stats (resolve s.workingDirectory) with
  | none => some s
  | some stat =>
      if stat.lastRetentionTime ≠ s.backupRetentionTime then none
      else if conflictingLevels stat.lastLevel s.simulationLevel then none
      else some s

/-- The option loop of `main`; `none` where the run ends before its job. -/
def readOptions : Settings → JobKind → Int → List MainOption → Option (Settings × JobKind × Int)
  | s, job, revision, [] => some (s, job, revision)
  | s, _, _, .restore revision :: rest => readOptions s .restore revision rest
  | s, _, revision, .makeTrace :: rest => readOptions s .makeTrace revision rest
  | s, job, revision, .parameter lines :: rest =>
      match loadConfigFromString reader s lines with
      | some s' => readOptions s' job revision rest
      | none => none
  | _, _, _, .state :: _ => none
  | _, _, _, .help :: _ => none
  | _, _, _, .unknown :: _ => none

def prepareRun (stats : StatFiles δ) (inv : Invocation) : Option (Settings × Settings × JobKind) :=
  match destorStart reader resolve stats inv.config with
  | none => none
  | some s =>
      match readOptions reader s .backup (-1) inv.options with
      | none => none
      | some (s', job, revision) =>
          if inv.path = false ∨ (job = .restore ∧ revision < 0) then none else some (s, s', job)

/-- `main`: the run's record, if it got to its job, and the stat files that `destor_shutdown`
leaves. -/
def runInvocation (stats : StatFiles δ) (inv : Invocation) :
    StatFiles δ × Option (RunRecord δ) :=
  match prepareRun reader resolve stats inv with
  | none => (stats, none)
  | some (_, s, job) =>
      let dir := resolve s.workingDirectory
      (if inv.finishes then
          Function.update stats dir (some ⟨s.backupRetentionTime, s.simulationLevel⟩)
        else stats,
        some { job := job, dir := dir, level := s.simulationLevel, completed := inv.finishes })

def runInvocations (stats : StatFiles δ) : List Invocation → List (RunRecord δ)
  | [] => []
  | inv :: rest =>
      (runInvocation reader resolve stats inv).2.toList ++
        runInvocations (runInvocation reader resolve stats inv).1 rest

/-- Two runs lay out the container pool in the same way. -/
def SameLayout (a b : SimulationLevel) : Prop := a.writesData = b.writesData

instance (a b : SimulationLevel) : Decidable (SameLayout a b) :=
  inferInstanceAs (Decidable (_ = _))

/-- A run does its work in the layout of every run that completed before it in the same working
directory. -/
def OneLayout (records : List (RunRecord δ)) : Prop :=
  records.Pairwise fun a b => a.completed = true → b.job ≠ .makeTrace → a.dir = b.dir →
    SameLayout a.level b.level

/-- An invocation whose parameters respect what `destor_start` checked: where the working directory
already has a `destor.stat`, they neither change the directory nor carry the simulation level
across `SIMULATION_APPEND`. -/
def KeepsChecked (stats : StatFiles δ) (inv : Invocation) : Prop :=
  ∀ s s' job, prepareRun reader resolve stats inv = some (s, s', job) →
    stats (resolve s'.workingDirectory) = none ∨
      (resolve s'.workingDirectory = resolve s.workingDirectory ∧
        SameLayout s'.simulationLevel s.simulationLevel)

def AllKeepChecked (stats : StatFiles δ) : List Invocation → Prop
  | [] => True
  | inv :: rest => KeepsChecked reader resolve stats inv ∧
      AllKeepChecked (runInvocation reader resolve stats inv).1 rest

variable {reader resolve}

theorem sameLayout_of_not_conflicting {a b : SimulationLevel}
    (h : conflictingLevels a b = false) : SameLayout a b := by
  cases a <;> cases b <;> first | rfl | exact absurd h (by decide)

omit [DecidableEq δ] in
/-- A run that got to its job passed the check of the stat file that `destor_start` saw. -/
theorem prepareRun_checked {stats : StatFiles δ} {inv : Invocation} {s s' : Settings}
    {job : JobKind} (h : prepareRun reader resolve stats inv = some (s, s', job)) {stat : DestorStat}
    (hstat : stats (resolve s.workingDirectory) = some stat) :
    SameLayout stat.lastLevel s.simulationLevel := by
  unfold prepareRun at h
  cases hstart : destorStart reader resolve stats inv.config with
  | none => simp [hstart] at h
  | some s₀ =>
      have hs : s₀ = s := by
        simp only [hstart] at h
        split at h
        · cases h
        · split at h
          · cases h
          · simp only [Option.some.injEq, Prod.mk.injEq] at h
            exact h.1
      subst hs
      unfold destorStart at hstart
      obtain ⟨s₁, -, hcheck⟩ := Option.bind_eq_some_iff.mp hstart
      apply sameLayout_of_not_conflicting
      cases hstat₁ : stats (resolve s₁.workingDirectory) with
      | none =>
          simp only [hstat₁, Option.some.injEq] at hcheck
          rw [← hcheck, hstat₁] at hstat
          cases hstat
      | some stat₁ =>
          simp only [hstat₁] at hcheck
          split at hcheck
          · cases hcheck
          · split at hcheck
            · cases hcheck
            · rename_i hconflict
              simp only [Option.some.injEq] at hcheck
              rw [← hcheck, hstat₁] at hstat
              cases hstat
              rw [← hcheck]
              simpa using hconflict

/-- The stat file of a directory has the layout of every run that completed there. -/
def StatsAgree (stats : StatFiles δ) (records : List (RunRecord δ)) : Prop :=
  ∀ r ∈ records, r.completed = true →
    ∃ stat, stats r.dir = some stat ∧ SameLayout r.level stat.lastLevel

theorem runInvocation_agrees {stats : StatFiles δ} {inv : Invocation}
    {records : List (RunRecord δ)} (hagree : StatsAgree stats records)
    (hkeep : KeepsChecked reader resolve stats inv) :
    StatsAgree (runInvocation reader resolve stats inv).1
        (records ++ (runInvocation reader resolve stats inv).2.toList) ∧
      ∀ b ∈ (runInvocation reader resolve stats inv).2, ∀ a ∈ records, a.completed = true →
        a.dir = b.dir → SameLayout a.level b.level := by
  unfold runInvocation
  cases hrun : prepareRun reader resolve stats inv with
  | none => simpa using hagree
  | some r =>
      obtain ⟨s, s', job⟩ := r
      have hlayout : ∀ a ∈ records, a.completed = true → a.dir = resolve s'.workingDirectory →
          SameLayout a.level s'.simulationLevel := by
        intro a ha hcompleted hdir
        obtain ⟨stat, hstat, hsame⟩ := hagree a ha hcompleted
        rw [hdir] at hstat
        rcases hkeep s s' job hrun with hnone | ⟨hresolve, hlevel⟩
        · rw [hnone] at hstat
          cases hstat
        · rw [hresolve] at hstat
          have hchecked := prepareRun_checked hrun hstat
          exact (hsame.trans hchecked).trans hlevel.symm
      refine ⟨?_, fun b hb a ha hcompleted hdir => ?_⟩
      · intro r hr hcompleted
        rcases List.mem_append.mp hr with hr | hr
        · by_cases hfinishes : inv.finishes = true
          · by_cases hdir : r.dir = resolve s'.workingDirectory
            · refine ⟨⟨s'.backupRetentionTime, s'.simulationLevel⟩, ?_,
                hlayout r hr hcompleted hdir⟩
              simp [hfinishes, hdir]
            · obtain ⟨stat, hstat, hsame⟩ := hagree r hr hcompleted
              exact ⟨stat, by simp [hfinishes, Function.update_of_ne hdir, hstat], hsame⟩
          · obtain ⟨stat, hstat, hsame⟩ := hagree r hr hcompleted
            exact ⟨stat, by simp [hfinishes, hstat], hsame⟩
        · simp only [Option.toList_some, List.mem_singleton] at hr
          subst hr
          simp only at hcompleted
          exact ⟨⟨s'.backupRetentionTime, s'.simulationLevel⟩, by simp [hcompleted], rfl⟩
      · simp only [Option.mem_def, Option.some.injEq] at hb
        subst hb
        exact hlayout a ha hcompleted hdir

private theorem oneLayout_from {stats : StatFiles δ} {invs : List Invocation}
    {records : List (RunRecord δ)} (hagree : StatsAgree stats records)
    (hone : OneLayout records) (hkeep : AllKeepChecked reader resolve stats invs) :
    OneLayout (records ++ runInvocations reader resolve stats invs) := by
  induction invs generalizing stats records with
  | nil => simpa [runInvocations] using hone
  | cons inv invs ih =>
      obtain ⟨hinv, hrest⟩ := hkeep
      obtain ⟨hagree', hlayout⟩ := runInvocation_agrees hagree hinv
      rw [runInvocations, ← List.append_assoc]
      refine ih hagree' ?_ hrest
      refine List.pairwise_append.mpr ⟨hone, ?_, fun a ha b hb hcompleted _ hdir => ?_⟩
      · cases (runInvocation reader resolve stats inv).2 <;> simp
      · exact hlayout b (by simpa using hb) a ha hcompleted hdir

/-- Runs that keep what `destor_start` checked never mix the two layouts of a container pool. -/
theorem runs_keep_layout {invs : List Invocation}
    (hkeep : AllKeepChecked reader resolve (fun _ => none) invs) :
    OneLayout (runInvocations reader resolve (fun _ => none) invs) := by
  have hnone : StatsAgree (fun _ : δ => none) [] := by
    intro r hr
    cases hr
  simpa using oneLayout_from hnone List.Pairwise.nil hkeep

end Run

section Example

private def plainReader : ConfigReader := ⟨fun _ => true, fun _ => 0⟩

private def plainBackup : Invocation :=
  { config := [], options := [], path := true, finishes := true }

private def appendLine : List Word := ["simulation-level".toList, "append".toList]

/-- Two backups of one working directory. -/
theorem runs_keep_layout_two_backups :
    OneLayout (runInvocations plainReader id (fun _ => none) [plainBackup, plainBackup]) := by
  refine runs_keep_layout ⟨fun _ _ _ _ => Or.inl rfl, fun s s' job h => Or.inr ?_, trivial⟩
  cases h
  exact ⟨rfl, rfl⟩

/-- A backup, then another one whose parameter changes the level after the check: the second run
looks for containers where the first one did not put them. -/
theorem runs_mix_layouts :
    ¬ OneLayout (runInvocations plainReader id (fun _ => none)
      [plainBackup, { plainBackup with options := [.parameter [appendLine]] }]) := by
  have hrun : runInvocations plainReader id (fun _ => none)
      [plainBackup, { plainBackup with options := [.parameter [appendLine]] }] =
      [⟨.backup, "/pmem/dedupDir".toList, .no, true⟩,
        ⟨.backup, "/pmem/dedupDir".toList, .append, true⟩] := by
    decide +kernel
  rw [hrun]
  intro h
  have hlevels : SameLayout .no .append :=
    List.rel_of_pairwise_cons h List.mem_cons_self rfl (by decide) rfl
  exact absurd hlevels (by decide)

end Example

end Destor
