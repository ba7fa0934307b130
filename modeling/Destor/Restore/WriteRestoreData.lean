/- digest: The last thread of a restore: the directories it makes, the files it opens and fills, and the
   tree of files that it leaves. -/

import Destor.DoBackup
import Destor.Library.PathName
import Destor.ReadPhase
import Destor.Restore.HeldChunks

set_option autoImplicit false
set_option relaxedAutoImplicit false

namespace Destor

open Library Library.Outcome Library.PathName Library.FileTree

/-- Directories and files on disk, under the names on the way from the root. -/
abbrev DiskTree := FileTree (List UInt8) UInt8

/-- Where `write_restore_data` can stop. -/
inductive WriteAbort where
  /-- `fp == NULL`: a file starts within another one. -/
  | fileOpen
  /-- `fwrite` to a file that is not open (a null dereference). -/
  | fileMissing
  /-- `destor.simulation_level == SIMULATION_NO`, when there is content to be written. -/
  | simulated
  /-- `init_jcr`: the path to restore to does not exist. -/
  | pathMissing
deriving DecidableEq, Repr

/-- The state of `write_restore_data`: what is on disk, the open file with its directory and name, and
`jcr.file_num`. -/
structure RestoreTarget where
  tree : DiskTree
  fp : Option (List (List UInt8) × List UInt8)
  fileNum : Nat

section Code

variable (cwd : List (List UInt8))

/-- `init_jcr` for a path to restore to: a directory gets a slash at its end. -/
def restorePath (t : DiskTree) (path : List UInt8) : Except WriteAbort (List UInt8) :=
  match stat t cwd path with
  | none => .error .pathMissing
  | some .directory => .ok (if path.getLast? ≠ some slash then path ++ [slash] else path)
  | some (.file _) => .ok path

/-- The loop over the slashes that `strchr` finds in `rest`, behind `head`: the directory in front of each
is made if `access` does not find it, and a slash behind a slash is skipped. -/
def makeParents (head : List UInt8) : List UInt8 → DiskTree → DiskTree
  | [], t => t
  | c :: rest, t =>
      if c = slash ∧ head.getLast? ≠ some slash ∧ stat t cwd head = none then
        makeParents (head ++ [c]) rest (makeDirectory t cwd head)
      else makeParents (head ++ [c]) rest t

variable (level : SimulationLevel) (path : List UInt8)

/-- The loop body of `write_restore_data`, with `path` for `jcr.path`. -/
def writeRestoreItem (s : RestoreTarget) : RestoreItem → Except WriteAbort RestoreTarget
  | .fileStart data =>
      -- `sdscat` takes the name up to its terminator
      let name := data.takeWhile (· ≠ 0)
      let tree := makeParents cwd path name s.tree
      if level = .no then
        if s.fp = none then
          match openWrite tree cwd (path ++ name) with
          | some (tree, fp) => .ok { s with tree := tree, fp := some fp }
          | none => .ok { s with tree := tree, fp := none }
        else .error .fileOpen
      else .ok { s with tree := tree }
  | .fileEnd => .ok { s with fileNum := s.fileNum + 1, fp := none }
  | .content size data =>
      if level = .no then
        match s.fp with
        | some (place, name) => .ok { s with tree := s.tree.append place name (data.take size) }
        | none => .error .fileMissing
      else .error .simulated

/-- `write_restore_data` for everything that is popped from `restore_chunk_queue`. -/
def writeRestoreData (items : List RestoreItem) (t : DiskTree) : Except WriteAbort RestoreTarget :=
  foldE (writeRestoreItem cwd level path)
    { tree := makeParents cwd (path.take 1) (path.drop 1) t, fp := none, fileNum := 0 } items

end Code

section Parents

variable {cwd place : List (List UInt8)} {t : DiskTree} {head current rest name : List UInt8}

/-- A component that names an entry of a directory. -/
def IsEntryName (name : List UInt8) : Prop := name ≠ [46] ∧ name ≠ [46, 46]

/-- A name behind a directory. -/
theorem steps_append_name (h : Leads t cwd head place) (hslash : slash ∉ current)
    (hne : current ≠ []) (hentry : IsEntryName current) :
    steps (head ++ current) = steps head ++ [.down current] := by
  rw [h.steps_append, steps, steps, components_of_not_mem hslash hne, List.map_singleton,
    stepOf_name hentry]

theorem parentOf_append_name (h : Leads t cwd head place) (hslash : slash ∉ current)
    (hne : current ≠ []) (hentry : IsEntryName current) :
    parentOf t cwd (head ++ current) = some (place, current) := by
  rw [parentOf, steps_append_name h hslash hne hentry, List.getLast?_concat, List.dropLast_concat,
    h.startOf_append, h.walk]
  rfl

theorem stat_append_name (h : Leads t cwd head place) (hslash : slash ∉ current)
    (hne : current ≠ []) (hentry : IsEntryName current) :
    stat t cwd (head ++ current) = t.entry (place ++ [current]) := by
  have hfind : t.find (startOf cwd (head ++ current)) (steps (head ++ current)) =
      t.entry (place ++ [current]) := by
    rw [FileTree.find, steps_append_name h hslash hne hentry, walk_append, h.startOf_append, h.walk,
      Option.bind_some, walk, if_pos h.directory]
    rfl
  have hlast : (head ++ current).getLast? ≠ some separator := by
    rw [List.getLast?_append_of_ne_nil _ hne]
    exact fun hmem => hslash (List.mem_of_getLast? hmem)
  rw [stat_eq_find (List.append_ne_nil_of_right_ne_nil head hne) hlast, hfind]

/-- The directory in front of a slash is there behind it. -/
theorem makeParents_name (h : Leads t cwd head place) (hslash : slash ∉ current)
    (hne : current ≠ []) (hentry : IsEntryName current) (rest : List UInt8) :
    makeParents cwd (head ++ current) (slash :: rest) t =
      makeParents cwd (head ++ current ++ [slash]) rest (t.mkdir place current) := by
  have hlast : (head ++ current).getLast? ≠ some slash := by
    rw [List.getLast?_append_of_ne_nil _ hne]
    exact fun hmem => hslash (List.mem_of_getLast? hmem)
  rw [makeParents, stat_append_name h hslash hne hentry, makeDirectory,
    parentOf_append_name h hslash hne hentry]
  by_cases hnone : t.entry (place ++ [current]) = none
  · rw [if_pos ⟨rfl, hlast, hnone⟩]
  · rw [if_neg fun hall => hnone hall.2.2, mkdir_of_exists hnone]

theorem leads_mkdir (h : Leads t cwd head place) (hslash : slash ∉ current)
    (hne : current ≠ []) (hentry : IsEntryName current)
    (hfile : ∀ content, t.entry (place ++ [current]) ≠ some (.file content)) :
    Leads (t.mkdir place current) cwd (head ++ current ++ [slash]) (place ++ [current]) := by
  have hgrown := h.grows (grows_mkdir t place current)
  refine ⟨List.getLast?_concat, ?_, ?_⟩
  · have hcomponents : components (current ++ [slash]) = [current] := by
      have hnil : components [] = [] := rfl
      show components (current ++ separator :: []) = [current]
      rw [components_append_separator, hnil, List.append_nil, components_of_not_mem hslash hne]
    rw [List.append_assoc, h.steps_append, h.startOf_append, steps, steps, hcomponents,
      List.map_singleton, stepOf_name hentry, walk_append]
    show ((t.mkdir place current).walk (startOf cwd head) (steps head)).bind _ = _
    rw [hgrown.walk, Option.bind_some, walk, if_pos hgrown.directory]
    rfl
  · rw [entry_mkdir h.directory hfile, if_pos rfl]

/-- A slash behind a slash changes nothing. -/
theorem leads_append_slash (h : Leads t cwd head place) :
    Leads t cwd (head ++ [slash]) place := by
  have hsteps : steps (head ++ [slash]) = steps head := by
    rw [h.steps_append]
    exact List.append_nil _
  refine ⟨List.getLast?_concat, ?_, h.directory⟩
  rw [hsteps, h.startOf_append]
  exact h.walk

/-- What is behind a slash does not end in one either. -/
theorem getLast?_behind_slash {current rest : List UInt8}
    (hlast : (current ++ slash :: rest).getLast? ≠ some slash) :
    ([] ++ rest).getLast? ≠ some slash := by
  rw [List.nil_append]
  cases rest with
  | nil => exact (Option.some_ne_none slash).symm
  | cons c rest =>
      rwa [List.getLast?_append_of_ne_nil _ (List.cons_ne_nil _ _),
        List.getLast?_cons_cons] at hlast

theorem componentsFrom_slash {current : List UInt8} (hne : current ≠ []) (rest : List UInt8) :
    componentsFrom current (slash :: rest) = current :: componentsFrom [] rest := by
  have hseparator : slash = separator := rfl
  rw [componentsFrom, if_pos hseparator, if_neg hne]
  rfl

theorem componentsFrom_name {current : List UInt8} {c : UInt8} (hc : c ≠ slash)
    (rest : List UInt8) :
    componentsFrom current (c :: rest) = componentsFrom (current ++ [c]) rest := by
  have hseparator : c ≠ separator := hc
  rw [componentsFrom, if_neg hseparator]

/-- A path that does not end in a slash has a name behind its last one. -/
theorem componentsFrom_behind_slash {current rest : List UInt8}
    (hlast : (current ++ slash :: rest).getLast? ≠ some slash) : componentsFrom [] rest ≠ [] := by
  rw [Ne, componentsFrom_eq_nil_iff]
  rintro ⟨-, hall⟩
  cases hend : rest.getLast? with
  | none =>
      rw [List.getLast?_eq_none_iff.mp hend] at hlast
      exact hlast List.getLast?_concat
  | some c =>
      apply getLast?_behind_slash hlast
      rw [List.nil_append, hend, hall c (List.mem_of_getLast? hend)]
      rfl

/-- At the end of the path only its last name is left. -/
theorem componentsFrom_end {current : List UInt8} {dirs : List (List UInt8)}
    (h : componentsFrom current [] = dirs ++ [name]) :
    current ≠ [] ∧ dirs = [] ∧ current = name := by
  have hne : current ≠ [] := by
    rintro rfl
    cases dirs <;> cases h
  rw [componentsFrom, if_neg hne] at h
  refine ⟨hne, ?_⟩
  cases dirs with
  | nil => exact ⟨rfl, List.singleton_inj.mp h⟩
  | cons d dirs => cases dirs <;> cases h

/-- The loop makes the directories on the way to the last name, and that can be opened then. -/
theorem makeParents_eq {dirs : List (List UInt8)} (h : Leads t cwd head place)
    (hslash : slash ∉ current) (hcomponents : componentsFrom current rest = dirs ++ [name])
    (hentries : ∀ n ∈ dirs ++ [name], IsEntryName n)
    (hlast : (current ++ rest).getLast? ≠ some slash)
    (hfile : ∀ p, p <+: dirs → ∀ content, t.entry (place ++ p) ≠ some (.file content)) :
    makeParents cwd (head ++ current) rest t = t.mkdirs place dirs ∧
      parentOf (t.mkdirs place dirs) cwd (head ++ current ++ rest) = some (place ++ dirs, name) := by
  induction rest generalizing head current t place dirs with
  | nil =>
      obtain ⟨hne, rfl, rfl⟩ := componentsFrom_end hcomponents
      refine ⟨rfl, ?_⟩
      rw [List.append_nil, List.append_nil]
      exact parentOf_append_name h hslash hne (hentries current (List.mem_singleton.mpr rfl))
  | cons c rest ih =>
      by_cases hc : c = slash
      · subst hc
        have hrest := getLast?_behind_slash hlast
        by_cases hcurrent : current = []
        · -- a slash behind a slash
          subst hcurrent
          have hcomponents : componentsFrom [] rest = dirs ++ [name] := hcomponents
          obtain ⟨hmade, hparent⟩ :=
            ih (leads_append_slash h) List.not_mem_nil hcomponents hentries hrest hfile
          rw [List.append_nil] at hmade hparent ⊢
          refine ⟨?_, ?_⟩
          · rw [makeParents, if_neg fun hall => hall.2.1 h.slash]
            exact hmade
          · rw [List.append_cons]
            exact hparent
        · rw [componentsFrom_slash hcurrent] at hcomponents
          cases dirs with
          | nil =>
              exact absurd (List.cons.inj hcomponents).2 (componentsFrom_behind_slash hlast)
          | cons d dirs =>
              obtain ⟨rfl, hdirs⟩ := List.cons.inj hcomponents
              obtain ⟨hentry, hentries⟩ := List.forall_mem_cons.mp hentries
              have hname := hfile [current] (List.prefix_append [current] dirs)
              obtain ⟨hmade, hparent⟩ := ih (leads_mkdir h hslash hcurrent hentry hname)
                List.not_mem_nil hdirs hentries hrest fun p hp content => by
                  rw [entry_mkdir h.directory hname, List.append_assoc]
                  split
                  · exact fun heq => by cases heq
                  · exact hfile _ ((List.prefix_cons_inj current).mpr hp) content
              rw [List.append_nil] at hmade hparent
              refine ⟨?_, ?_⟩
              · rw [makeParents_name h hslash hcurrent hentry]
                exact hmade
              · rw [List.append_cons _ slash, List.append_cons place]
                exact hparent
      · rw [componentsFrom_name hc] at hcomponents
        have hslash' : slash ∉ current ++ [c] := by
          rw [List.mem_append, List.mem_singleton, not_or]
          exact ⟨hslash, Ne.symm hc⟩
        rw [List.append_cons] at hlast
        obtain ⟨hmade, hparent⟩ := ih h hslash' hcomponents hentries hlast hfile
        rw [← List.append_assoc] at hmade hparent
        refine ⟨?_, ?_⟩
        · rw [makeParents, if_neg fun hall => hc hall.1]
          exact hmade
        · rw [List.append_cons _ c]
          exact hparent

end Parents

section Files

variable {cwd base : List (List UInt8)} {t : DiskTree} {path : List UInt8}

/-- The items that `write_restore_data` gets for a file: its name, the bytes of its chunks, its end. -/
def InputFile.items (f : InputFile) : List RestoreItem :=
  .fileStart (f.name ++ [0]) :: f.chunks.map (fun c => .content c.size c.data) ++ [.fileEnd]

def InputFile.bytes (f : InputFile) : List UInt8 := f.chunks.flatMap fun c => c.data.take c.size

def InputFile.placed (f : InputFile) : List (List UInt8) × List UInt8 :=
  (components f.name, f.bytes)

structure IsRelativeName (name : List UInt8) : Prop where
  no_nul : 0 ∉ name
  ne_nil : name ≠ []
  not_slash : name.getLast? ≠ some slash
  entries : ∀ n ∈ components name, IsEntryName n

theorem IsRelativeName.components_ne_nil {name : List UInt8} (h : IsRelativeName name) :
    components name ≠ [] := by
  intro hnil
  obtain ⟨-, hall⟩ := componentsFrom_eq_nil_iff.mp hnil
  cases hend : name.getLast? with
  | none => exact h.ne_nil (List.getLast?_eq_none_iff.mp hend)
  | some c =>
      apply h.not_slash
      rw [hend, hall c (List.mem_of_getLast? hend)]
      rfl

theorem foldE_content {place : List (List UInt8)} {name : List UInt8} (chunks : List InputChunk)
    {s : RestoreTarget} {content : List UInt8} (hfp : s.fp = some (place, name))
    (hentry : s.tree.entry (place ++ [name]) = some (.file content)) :
    ∃ s', foldE (writeRestoreItem cwd .no path) s
        (chunks.map fun c => .content c.size c.data) = .ok s' ∧
      s'.fp = some (place, name) ∧ s'.fileNum = s.fileNum ∧
      s'.tree.entry (place ++ [name]) =
        some (.file (content ++ chunks.flatMap fun c => c.data.take c.size)) ∧
      ∀ q, q ≠ place ++ [name] → s'.tree.entry q = s.tree.entry q := by
  induction chunks generalizing s content with
  | nil => exact ⟨s, rfl, hfp, rfl, by rw [List.flatMap_nil, List.append_nil, hentry], fun _ _ => rfl⟩
  | cons c chunks ih =>
      have hstep : writeRestoreItem cwd .no path s (.content c.size c.data) =
          .ok { s with tree := s.tree.append place name (c.data.take c.size) } := by
        rw [writeRestoreItem, if_pos rfl, hfp]
      have happend := entry_append hentry (c.data.take c.size)
      obtain ⟨s', hrun, hfp', hnum, hentry', hframe⟩ := ih
        (s := { s with tree := s.tree.append place name (c.data.take c.size) }) hfp
        ((happend _).trans (if_pos rfl))
      refine ⟨s', ?_, hfp', hnum, ?_, fun q hq => ?_⟩
      · rw [List.map_cons, foldE, hstep]
        exact hrun
      · rw [hentry', List.flatMap_cons, List.append_assoc]
      · rw [hframe q hq]
        exact (happend q).trans (if_neg hq)

theorem foldE_file (hleads : Leads t cwd path base) {f : InputFile} (hname : IsRelativeName f.name)
    (hroom : Room t base (components f.name)) (fileNum : Nat) :
    ∃ tree, foldE (writeRestoreItem cwd .no path) { tree := t, fp := none, fileNum := fileNum }
        f.items = .ok { tree := tree, fp := none, fileNum := fileNum + 1 } ∧
      Extracted t base [f.placed] tree := by
  obtain ⟨dirs, name, hcomponents⟩ : ∃ dirs name, components f.name = dirs ++ [name] :=
    ⟨_, _, (List.dropLast_concat_getLast hname.components_ne_nil).symm⟩
  have hroom' : Room t base (dirs ++ [name]) := hcomponents ▸ hroom
  have hproper : ∀ p, p <+: dirs → p <+: dirs ++ [name] ∧ p ≠ dirs ++ [name] := fun p hp =>
    ⟨hp.trans (List.prefix_append dirs [name]), fun heq => by
      have hlength := hp.length_le
      rw [heq, List.length_append, List.length_singleton] at hlength
      omega⟩
  obtain ⟨hmade, hparent⟩ := makeParents_eq hleads List.not_mem_nil hcomponents
    (hcomponents ▸ hname.entries) hname.not_slash fun p hp =>
      hroom'.way p (hproper p hp).1 (hproper p hp).2
  rw [List.append_nil] at hmade hparent
  obtain ⟨created, hcreate, hempty, hextract⟩ := exists_extracted hleads.directory hroom'
  have hlast : (path ++ f.name).getLast? ≠ some separator := by
    rw [List.getLast?_append_of_ne_nil _ hname.ne_nil]
    exact hname.not_slash
  have hcut : (f.name ++ [0]).takeWhile (· ≠ 0) = f.name := by
    have hall : ∀ c ∈ f.name, decide (c ≠ 0) = true := by
      intro c hc
      apply decide_eq_true
      rintro rfl
      exact hname.no_nul hc
    rw [List.takeWhile_append_of_pos hall]
    exact List.append_nil _
  have hopen : writeRestoreItem cwd .no path { tree := t, fp := none, fileNum := fileNum }
      (.fileStart (f.name ++ [0])) =
        .ok { tree := created, fp := some (base ++ dirs, name), fileNum := fileNum } := by
    simp only [writeRestoreItem, hcut, if_true, hmade, openWrite_eq hlast hparent hcreate]
  obtain ⟨s', hrun, hfp, hnum, hentry, hframe⟩ := foldE_content f.chunks
    (s := { tree := created, fp := some (base ++ dirs, name), fileNum := fileNum }) rfl hempty
  refine ⟨s'.tree, ?_, ?_⟩
  · rw [InputFile.items, List.cons_append, foldE, hopen]
    show foldE _ _ (_ ++ [_]) = _
    rw [foldE_append, hrun]
    exact congrArg (fun n => Except.ok (RestoreTarget.mk s'.tree none (n + 1))) hnum
  · have hplaced : f.placed = (dirs ++ [name], f.bytes) := congrArg (·, f.bytes) hcomponents
    rw [hplaced]
    apply hextract f.bytes s'.tree
    intro place
    split
    · rename_i hplace
      rw [hplace]
      exact hentry
    · rename_i hplace
      exact hframe place hplace

theorem foldE_files {files : List InputFile} (hleads : Leads t cwd path base)
    (hnames : ∀ f ∈ files, IsRelativeName f.name)
    (hroom : ∀ f ∈ files, Room t base (components f.name))
    (hapart : files.Pairwise fun f g => Apart (components f.name) (components g.name))
    (fileNum : Nat) :
    ∃ tree, foldE (writeRestoreItem cwd .no path) { tree := t, fp := none, fileNum := fileNum }
        (files.flatMap InputFile.items) =
          .ok { tree := tree, fp := none, fileNum := fileNum + files.length } ∧
      Extracted t base (files.map InputFile.placed) tree := by
  induction files generalizing t fileNum with
  | nil => exact ⟨t, rfl, Extracted.nil t base⟩
  | cons f files ih =>
      obtain ⟨hname, hnames⟩ := List.forall_mem_cons.mp hnames
      obtain ⟨hfirst, hroom⟩ := List.forall_mem_cons.mp hroom
      obtain ⟨hothers, hapart⟩ := List.pairwise_cons.mp hapart
      obtain ⟨t₁, hrun, hextracted⟩ := foldE_file hleads hname hfirst fileNum
      obtain ⟨tree, hrest, hall⟩ := ih (hleads.grows (hextracted.grows hfirst)) hnames
        (fun g hg => (hroom g hg).of_extracted hextracted (hothers g hg)) hapart (fileNum + 1)
      refine ⟨tree, ?_, hextracted.cons hall fun g hg => ?_⟩
      · rw [List.flatMap_cons, foldE_append, hrun]
        show foldE _ _ _ = _
        rw [hrest, List.length_cons, Nat.add_right_comm, Nat.add_assoc]
      · obtain ⟨f', hf', rfl⟩ := List.mem_map.mp hg
        exact hothers f' hf'

end Files

section Path

variable {cwd base : List (List UInt8)} {t : DiskTree} {path : List UInt8}

/-- Nothing is made on the way to a directory that is there. -/
theorem makeParents_self {head rest : List UInt8}
    (hfound : ∀ before after, head ++ rest = before ++ slash :: after →
      head.length ≤ before.length → before.getLast? ≠ some slash → stat t cwd before ≠ none) :
    makeParents cwd head rest t = t := by
  induction rest generalizing head with
  | nil => rfl
  | cons c rest ih =>
      have hrest : makeParents cwd (head ++ [c]) rest t = t := ih fun before after heq hle hlast => by
        refine hfound before after ?_ ?_ hlast
        · rw [List.append_cons]
          exact heq
        · rw [List.length_append] at hle
          omega
      rw [makeParents, if_neg]
      · exact hrest
      · rintro ⟨rfl, hlast, hnone⟩
        exact hfound head rest rfl (Nat.le_refl _) hlast hnone

/-- Every directory on the way to one is found. -/
theorem stat_before (h : Leads t cwd path base) {before after : List UInt8}
    (heq : path = before ++ slash :: after) (hne : before ≠ [])
    (hlast : before.getLast? ≠ some slash) : stat t cwd before ≠ none := by
  have hsteps : steps path = steps before ++ steps after := by
    rw [heq, steps, steps, steps, ← List.map_append]
    exact congrArg _ (components_append_separator before after)
  have hstart : startOf cwd path = startOf cwd before := by
    obtain ⟨c, before, rfl⟩ := List.exists_cons_of_ne_nil hne
    rw [heq]
    rfl
  have hwalk := h.walk
  rw [hsteps, hstart, walk_append, Option.bind_eq_some_iff] at hwalk
  obtain ⟨q, hq, hafter⟩ := hwalk
  have hdir : t.entry q = some .directory := by
    cases hrest : steps after with
    | nil =>
        rw [hrest] at hafter
        cases hafter
        exact h.directory
    | cons step rest =>
        rw [hrest, walk] at hafter
        by_contra hno
        rw [if_neg hno] at hafter
        cases hafter
  rw [stat_eq_find hne hlast, FileTree.find, hq, Option.bind_some, hdir]
  exact Option.some_ne_none _

theorem makeParents_leads (h : Leads t cwd path base) :
    makeParents cwd (path.take 1) (path.drop 1) t = t := by
  obtain ⟨c, rest, rfl⟩ : ∃ c rest, path = c :: rest := by
    obtain ⟨before, hpath⟩ := h.eq_append
    cases before <;> exact ⟨_, _, hpath⟩
  apply makeParents_self
  intro before after heq hle hlast
  rw [List.take_append_drop] at heq
  refine stat_before h heq (fun hnil => ?_) hlast
  rw [hnil] at hle
  simp at hle

/-- An existing directory, with the slash that `init_jcr` gives it. -/
theorem exists_leads (hstat : stat t cwd path = some .directory) :
    ∃ path' base, restorePath cwd t path = .ok path' ∧
      t.walk (startOf cwd path) (steps path) = some base ∧ Leads t cwd path' base := by
  obtain ⟨hne, base, hwalk, hdir⟩ := walk_of_stat hstat
  by_cases hlast : path.getLast? = some slash
  · refine ⟨path, base, ?_, hwalk, hlast, hwalk, hdir⟩
    rw [restorePath, hstat]
    exact congrArg Except.ok (if_neg fun hno => hno hlast)
  · refine ⟨path ++ [slash], base, ?_, hwalk, List.getLast?_concat, ?_, hdir⟩
    · rw [restorePath, hstat]
      exact congrArg Except.ok (if_pos hlast)
    · have hsteps : steps (path ++ [slash]) = steps path := by
        have hcomponents : components (path ++ [slash]) = components path ++ components [] :=
          components_append_separator path []
        rw [steps, steps, hcomponents]
        exact congrArg _ (List.append_nil _)
      have hstart : startOf cwd (path ++ [slash]) = startOf cwd path := by
        obtain ⟨c, rest, rfl⟩ := List.exists_cons_of_ne_nil hne
        rfl
      rw [hsteps, hstart]
      exact hwalk

/-- What a restore leaves on disk: if the path to restore to is a directory in which there is room for the
files, then `write_restore_data` runs to its end, counts the files, has closed the last one, and has put
each of them at the place that its name says, with all its bytes; it has made the directories on the way
to them and changed nothing else. -/
theorem restored_files_written {files : List InputFile} (hstat : stat t cwd path = some .directory)
    (hnames : ∀ f ∈ files, IsRelativeName f.name)
    (hapart : files.Pairwise fun f g => Apart (components f.name) (components g.name)) :
    ∃ path' base, restorePath cwd t path = .ok path' ∧
      t.walk (startOf cwd path) (steps path) = some base ∧
      ((∀ f ∈ files, Room t base (components f.name)) →
        ∃ s, writeRestoreData cwd .no path' (files.flatMap InputFile.items) t = .ok s ∧
          s.fp = none ∧ s.fileNum = files.length ∧
          Extracted t base (files.map InputFile.placed) s.tree) := by
  obtain ⟨path', base, hpath, hwalk, hleads⟩ := exists_leads hstat
  refine ⟨path', base, hpath, hwalk, fun hroom => ?_⟩
  obtain ⟨tree, hrun, hextracted⟩ := foldE_files hleads hnames hroom hapart 0
  refine ⟨{ tree := tree, fp := none, fileNum := 0 + files.length }, ?_, rfl, Nat.zero_add _,
    hextracted⟩
  rw [writeRestoreData, makeParents_leads hleads]
  exact hrun

end Path

section Example

def bareDisk : DiskTree where
  entry place := if place = [] then some .directory else none
  root := rfl
  parent path name h := absurd (if_neg (List.append_ne_nil_of_right_ne_nil path
    (List.cons_ne_nil name []))) h

theorem room_bareDisk {names : List (List UInt8)} (hne : names ≠ []) : Room bareDisk [] names :=
  room_of_empty rfl (fun _ => rfl) hne

/-- The files `b`, of two chunks, and `c` in the directory `a`. -/
def smallTree : List InputFile :=
  [{ name := [97, 47, 98]
     chunks := [{ fp := .fill 1, size := 1, data := [7] }, { fp := .fill 2, size := 1, data := [8] }] },
    { name := [97, 47, 99], chunks := [{ fp := .fill 3, size := 1, data := [9] }] }]

private theorem isRelativeName_inA {n : UInt8} (hn : n = 98 ∨ n = 99) :
    IsRelativeName [97, 47, n] := by
  have hcomponents : components [97, 47, n] = [[97], [n]] := by
    rcases hn with rfl | rfl <;> decide
  refine ⟨?_, List.cons_ne_nil _ _, ?_, fun m hm => ?_⟩
  · rcases hn with rfl | rfl <;> decide
  · rcases hn with rfl | rfl <;> decide
  · rw [hcomponents] at hm
    simp only [List.mem_cons, List.not_mem_nil, or_false] at hm
    rcases hm with rfl | rfl
    · exact ⟨by decide, by decide⟩
    · rcases hn with rfl | rfl <;> exact ⟨by decide, by decide⟩

theorem restored_files_written_two : ∃ path base s, restorePath [] bareDisk [47] = .ok path ∧
    bareDisk.walk (startOf [] [47]) (steps [47]) = some base ∧
    writeRestoreData [] .no path (smallTree.flatMap InputFile.items) bareDisk = .ok s ∧
    s.fileNum = 2 ∧ s.tree.entry (base ++ [[97]]) = some .directory ∧
    s.tree.entry (base ++ [[97], [98]]) = some (.file [7, 8]) ∧
    s.tree.entry (base ++ [[97], [99]]) = some (.file [9]) := by
  have hname : ∀ f ∈ smallTree, IsRelativeName f.name := by
    simp only [smallTree, List.forall_mem_cons]
    exact ⟨isRelativeName_inA (.inl rfl), isRelativeName_inA (.inr rfl),
      fun f hf => absurd hf List.not_mem_nil⟩
  have hapart : smallTree.Pairwise fun f g => Apart (components f.name) (components g.name) := by
    unfold Apart
    decide
  have hstat : stat bareDisk [] [47] = some .directory := rfl
  obtain ⟨path, base, hpath, hwalk, hwrite⟩ := restored_files_written hstat hname hapart
  obtain rfl : [] = base := Option.some.inj hwalk
  have hroom : ∀ f ∈ smallTree, Room bareDisk [] (components f.name) := fun f hf =>
    room_bareDisk (hname f hf).components_ne_nil
  obtain ⟨s, hrun, -, hnum, hextracted⟩ := hwrite hroom
  refine ⟨path, [], s, hpath, hwalk, hrun, hnum, ?_, ?_, ?_⟩
  · exact hextracted.directory ([[97], [98]], [7, 8]) List.mem_cons_self [[97]]
      (List.prefix_append [[97]] [[98]]) (by decide)
  · exact hextracted.file ([[97], [98]], [7, 8]) List.mem_cons_self
  · exact hextracted.file ([[97], [99]], [9]) (List.mem_cons_of_mem _ List.mem_cons_self)

end Example

end Destor
