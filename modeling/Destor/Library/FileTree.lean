/- digest: A tree of directories and files: walking it, making directories, writing files, and what a
   directory looks like into which some files were extracted. -/

import Mathlib.Data.List.Infix

set_option autoImplicit false
set_option relaxedAutoImplicit false

namespace Destor.Library

variable {α β : Type}

/-- What is found at a place of a tree. -/
inductive FileEntry (β : Type) where
  | directory
  | file (content : List β)
deriving DecidableEq

/-- A tree of files. A place is the list of the names on the way from the root. -/
structure FileTree (α β : Type) where
  entry : List α → Option (FileEntry β)
  root : entry [] = some .directory
  /-- What has something in it is a directory. -/
  parent : ∀ path name, entry (path ++ [name]) ≠ none → entry path = some .directory

/-- A component of a path name: the directory itself, the one above it, or a name in it. -/
inductive PathStep (α : Type) where
  | here
  | up
  | down (name : α)
deriving DecidableEq

def PathStep.goes (place : List α) : PathStep α → List α
  | here => place
  | up => place.dropLast
  | down name => place ++ [name]

namespace FileTree

/-- Trees are equal if the same is found at each place. -/
theorem ext_entry {t t' : FileTree α β} (h : ∀ place, t.entry place = t'.entry place) : t = t' := by
  obtain ⟨entry, _, _⟩ := t
  obtain ⟨entry', _, _⟩ := t'
  obtain rfl : entry = entry' := funext h
  rfl

/-- Nothing is below a place at which there is nothing. -/
theorem entry_append_eq_none {t : FileTree α β} {path : List α} (h : t.entry path = none)
    (rest : List α) : t.entry (path ++ rest) = none := by
  induction rest using List.reverseRecOn with
  | nil => rwa [List.append_nil]
  | append_singleton rest name ih =>
      rw [← List.append_assoc]
      by_contra hne
      rw [t.parent _ _ hne] at ih
      cases ih

section Walk

variable [DecidableEq β] {t t' : FileTree α β} {place : List α}

def walk (t : FileTree α β) : List α → List (PathStep α) → Option (List α)
  | place, [] => some place
  | place, step :: rest =>
      if t.entry place = some .directory then t.walk (step.goes place) rest else none

def find (t : FileTree α β) (place : List α) (steps : List (PathStep α)) :
    Option (FileEntry β) :=
  (t.walk place steps).bind t.entry

theorem walk_append (t : FileTree α β) (place : List α) (steps rest : List (PathStep α)) :
    t.walk place (steps ++ rest) = (t.walk place steps).bind fun q => t.walk q rest := by
  induction steps generalizing place with
  | nil => rfl
  | cons step steps ih =>
      rw [List.cons_append, walk, walk]
      split
      · exact ih _
      · rfl

/-- Every directory is one still. -/
def Grows (t t' : FileTree α β) : Prop :=
  ∀ place, t.entry place = some .directory → t'.entry place = some .directory

theorem Grows.walk (h : t.Grows t') {steps : List (PathStep α)} {q : List α}
    (hwalk : t.walk place steps = some q) : t'.walk place steps = some q := by
  induction steps generalizing place with
  | nil => exact hwalk
  | cons step steps ih =>
      rw [FileTree.walk] at hwalk ⊢
      split at hwalk
      · rename_i hdir
        rw [if_pos (h place hdir)]
        exact ih hwalk
      · cases hwalk

end Walk

section Operations

variable [DecidableEq α]

def put (t : FileTree α β) (path : List α) (name : α) (e : FileEntry β)
    (hdir : t.entry path = some .directory) (hfree : t.entry (path ++ [name]) ≠ some .directory) :
    FileTree α β where
  entry place := if place = path ++ [name] then some e else t.entry place
  root := by
    rw [if_neg (List.append_ne_nil_of_right_ne_nil path (List.cons_ne_nil name [])).symm]
    exact t.root
  parent place name' h := by
    have hself : path ≠ path ++ [name] := fun heq => by
      have hlength := congrArg List.length heq
      rw [List.length_append, List.length_singleton] at hlength
      omega
    by_cases hnew : place ++ [name'] = path ++ [name]
    · obtain ⟨rfl, -⟩ := List.append_inj' hnew rfl
      rw [if_neg hself]
      exact hdir
    · rw [if_neg hnew] at h
      have hplace := t.parent place name' h
      have hold : place ≠ path ++ [name] := fun heq => hfree (heq ▸ hplace)
      rw [if_neg hold]
      exact hplace

variable [DecidableEq β] {t t' : FileTree α β} {base path : List α} {name : α}

/-- A new directory, where there is nothing. -/
def mkdir (t : FileTree α β) (path : List α) (name : α) : FileTree α β :=
  if h : t.entry path = some .directory ∧ t.entry (path ++ [name]) = none then
    t.put path name .directory h.1 (by rw [h.2]; exact nofun)
  else t

def create (t : FileTree α β) (path : List α) (name : α) : Option (FileTree α β) :=
  if h : t.entry path = some .directory ∧ t.entry (path ++ [name]) ≠ some .directory then
    some (t.put path name (.file []) h.1 h.2)
  else none

def append (t : FileTree α β) (path : List α) (name : α) (bytes : List β) : FileTree α β :=
  match h : t.entry (path ++ [name]) with
  | some (.file content) =>
      t.put path name (.file (content ++ bytes)) (t.parent path name (by rw [h]; exact nofun))
        (by rw [h]; exact nofun)
  | _ => t

theorem entry_mkdir (hdir : t.entry path = some .directory)
    (hfile : ∀ content, t.entry (path ++ [name]) ≠ some (.file content)) (place : List α) :
    (t.mkdir path name).entry place =
      if place = path ++ [name] then some .directory else t.entry place := by
  rw [mkdir]
  split
  · rfl
  · rename_i hno
    split
    · rename_i hplace
      cases hentry : t.entry (path ++ [name]) with
      | none => exact absurd ⟨hdir, hentry⟩ hno
      | some e =>
          cases e with
          | directory => rw [hplace, hentry]
          | file content => exact absurd hentry (hfile content)
    · rfl

theorem mkdir_of_exists (h : t.entry (path ++ [name]) ≠ none) : t.mkdir path name = t :=
  dif_neg fun hnew => h hnew.2

theorem grows_mkdir (t : FileTree α β) (path : List α) (name : α) : t.Grows (t.mkdir path name) := by
  intro place hplace
  rw [mkdir]
  split
  · rename_i hnew
    refine (if_neg fun heq => ?_).trans hplace
    rw [heq, hnew.2] at hplace
    cases hplace
  · exact hplace

theorem exists_create (hdir : t.entry path = some .directory)
    (hfree : t.entry (path ++ [name]) ≠ some .directory) : ∃ t', t.create path name = some t' ∧
      ∀ place, t'.entry place = if place = path ++ [name] then some (.file []) else t.entry place :=
  ⟨_, dif_pos ⟨hdir, hfree⟩, fun _ => rfl⟩

omit [DecidableEq β] in
theorem entry_append {content : List β} (h : t.entry (path ++ [name]) = some (.file content))
    (bytes : List β) (place : List α) : (t.append path name bytes).entry place =
      if place = path ++ [name] then some (.file (content ++ bytes)) else t.entry place := by
  rw [append]
  split
  · rename_i content' h'
    obtain rfl : content' = content := by
      rw [h] at h'
      cases h'
      rfl
    rfl
  · rename_i hno
    exact absurd h (hno content)

/-- The directories on the way down some names, made one after the other. -/
def mkdirs (t : FileTree α β) : List α → List α → FileTree α β
  | _, [] => t
  | base, name :: names => (t.mkdir base name).mkdirs (base ++ [name]) names

theorem entry_mkdirs {names : List α} (hdir : t.entry base = some .directory)
    (hfile : ∀ p, p <+: names → ∀ content, t.entry (base ++ p) ≠ some (.file content)) :
    (∀ p, p <+: names → (t.mkdirs base names).entry (base ++ p) = some .directory) ∧
      ∀ place, (∀ p, p <+: names → place ≠ base ++ p) →
        (t.mkdirs base names).entry place = t.entry place := by
  induction names generalizing t base with
  | nil =>
      refine ⟨fun p hp => ?_, fun _ _ => rfl⟩
      rw [List.prefix_nil.mp hp, List.append_nil]
      exact hdir
  | cons name names ih =>
      have hname : ∀ content, t.entry (base ++ [name]) ≠ some (.file content) :=
        hfile [name] (List.prefix_append [name] names)
      have hentry := entry_mkdir hdir hname
      have hnew : (t.mkdir base name).entry (base ++ [name]) = some .directory := by
        rw [hentry, if_pos rfl]
      obtain ⟨hmade, hframe⟩ := ih hnew fun p hp content => by
        rw [hentry, List.append_assoc]
        split
        · exact nofun
        · exact hfile _ ((List.prefix_cons_inj name).mpr hp) content
      constructor
      · rintro p hp
        rcases List.prefix_cons_iff.mp hp with rfl | ⟨q, rfl, hq⟩
        · have hself : ∀ rest, base ≠ base ++ [name] ++ rest := fun rest heq => by
            have hlength := congrArg List.length heq
            simp only [List.length_append, List.length_singleton] at hlength
            omega
          rw [List.append_nil, mkdirs, hframe base fun p _ => hself p, hentry,
            if_neg fun heq => hself [] (heq.trans (List.append_nil _).symm)]
          exact hdir
        · rw [List.append_cons]
          exact hmade q hq
      · intro place hplace
        rw [mkdirs, hframe place fun p hp => ?_, hentry, if_neg]
        · exact hplace [name] (List.prefix_append [name] names)
        · rw [List.append_assoc]
          exact hplace (name :: p) ((List.prefix_cons_inj name).mpr hp)

end Operations

section Extract

variable {t t' t'' : FileTree α β} {base : List α} {f : List α × List β}
  {files : List (List α × List β)}

/-- Some files have been extracted into the directory at `base`, each at the place that goes with it: they
are there, with the directories on the way to them, and nothing else has changed. -/
structure Extracted (t : FileTree α β) (base : List α) (files : List (List α × List β))
    (t' : FileTree α β) : Prop where
  file : ∀ f ∈ files, t'.entry (base ++ f.1) = some (.file f.2)
  directory : ∀ f ∈ files, ∀ p, p <+: f.1 → p ≠ f.1 → t'.entry (base ++ p) = some .directory
  frame : ∀ place, (∀ f ∈ files, ∀ p, p <+: f.1 → place ≠ base ++ p) →
    t'.entry place = t.entry place

/-- No file is on the way to the place of a new one, and no directory there. -/
structure Room (t : FileTree α β) (base : List α) (names : List α) : Prop where
  way : ∀ p, p <+: names → p ≠ names → ∀ content, t.entry (base ++ p) ≠ some (.file content)
  place : t.entry (base ++ names) ≠ some .directory

/-- Neither of two places is on the way to the other. -/
def Apart (p q : List α) : Prop := ¬ p <+: q ∧ ¬ q <+: p

theorem Extracted.unique (h : Extracted t base files t') (h' : Extracted t base files t'') :
    t' = t'' := by
  apply ext_entry
  intro place
  by_cases hplace : ∃ f ∈ files, ∃ p, p <+: f.1 ∧ place = base ++ p
  · obtain ⟨f, hf, p, hp, rfl⟩ := hplace
    by_cases hwhole : p = f.1
    · rw [hwhole, h.file f hf, h'.file f hf]
    · rw [h.directory f hf p hp hwhole, h'.directory f hf p hp hwhole]
  · have hno : ∀ f ∈ files, ∀ p, p <+: f.1 → place ≠ base ++ p := fun f hf p hp heq =>
      hplace ⟨f, hf, p, hp, heq⟩
    rw [h.frame place hno, h'.frame place hno]

/-- No directory is lost where there is room. -/
theorem Extracted.grows (h : Extracted t base [f] t') (hroom : Room t base f.1) : t.Grows t' := by
  have hf : f ∈ [f] := List.mem_singleton.mpr rfl
  intro place hplace
  by_cases hway : ∃ p, p <+: f.1 ∧ place = base ++ p
  · obtain ⟨p, hp, rfl⟩ := hway
    exact h.directory f hf p hp fun heq => hroom.place (heq ▸ hplace)
  · rw [h.frame place fun g hg p hp heq => hway ⟨p, List.mem_singleton.mp hg ▸ hp, heq⟩]
    exact hplace

theorem Extracted.nil (t : FileTree α β) (base : List α) : Extracted t base [] t :=
  ⟨nofun, nofun, fun _ _ => rfl⟩

theorem Extracted.cons (h : Extracted t base [f] t') (h' : Extracted t' base files t'')
    (hapart : ∀ g ∈ files, Apart f.1 g.1) : Extracted t base (f :: files) t'' := by
  have hf : f ∈ [f] := List.mem_singleton.mpr rfl
  constructor
  · intro g hg
    rcases List.mem_cons.mp hg with rfl | hg
    · rw [h'.frame _ fun k hk p hp heq => ?_]
      · exact h.file g hf
      · have heq := List.append_cancel_left heq
        exact (hapart k hk).1 (heq ▸ hp)
    · exact h'.file g hg
  · intro g hg p hp hne
    rcases List.mem_cons.mp hg with rfl | hg
    · by_cases hother : ∃ k ∈ files, p <+: k.1
      · obtain ⟨k, hk, hpk⟩ := hother
        refine h'.directory k hk p hpk fun heq => (hapart k hk).2 ?_
        rw [← heq]
        exact hp
      · rw [h'.frame _ fun k hk p' hp' heq => ?_]
        · exact h.directory g hf p hp hne
        · have heq := List.append_cancel_left heq
          exact hother ⟨k, hk, heq ▸ hp'⟩
    · exact h'.directory g hg p hp hne
  · intro place hplace
    obtain ⟨hfirst, hrest⟩ := List.forall_mem_cons.mp hplace
    rw [h'.frame place hrest]
    exact h.frame place fun k hk => List.mem_singleton.mp hk ▸ hfirst

theorem Room.of_extracted {names : List α} (hroom : Room t base names)
    (h : Extracted t base [f] t') (hapart : Apart f.1 names) : Room t' base names := by
  have hf : f ∈ [f] := List.mem_singleton.mpr rfl
  constructor
  · intro p hp hne content
    by_cases hway : p <+: f.1
    · have hwhole : p ≠ f.1 := fun heq => hapart.1 (heq ▸ hp)
      rw [h.directory f hf p hway hwhole]
      exact nofun
    · rw [h.frame _ fun k hk p' hp' heq => ?_]
      · exact hroom.way p hp hne content
      · have heq := List.append_cancel_left heq
        rw [List.mem_singleton.mp hk] at hp'
        exact hway (heq ▸ hp')
  · rw [h.frame _ fun k hk p' hp' heq => ?_]
    · exact hroom.place
    · have heq := List.append_cancel_left heq
      rw [List.mem_singleton.mp hk] at hp'
      exact hapart.2 (heq ▸ hp')

theorem room_of_empty {names : List α} (hdir : t.entry base = some .directory)
    (hempty : ∀ name, t.entry (base ++ [name]) = none) (hne : names ≠ []) : Room t base names := by
  have hnone : ∀ p : List α, p ≠ [] → t.entry (base ++ p) = none := by
    intro p hp
    obtain ⟨name, p, rfl⟩ := List.exists_cons_of_ne_nil hp
    rw [List.append_cons]
    exact entry_append_eq_none (hempty name) p
  constructor
  · intro p _ _ content
    by_cases hp : p = []
    · rw [hp, List.append_nil, hdir]
      exact nofun
    · rw [hnone p hp]
      exact nofun
  · rw [hnone names hne]
    exact nofun

variable [DecidableEq α] [DecidableEq β]

/-- The directories on the way are made, the file is created, and its content written. -/
theorem exists_extracted {dirs : List α} {name : α} (hdir : t.entry base = some .directory)
    (hroom : Room t base (dirs ++ [name])) :
    ∃ t', (t.mkdirs base dirs).create (base ++ dirs) name = some t' ∧
      t'.entry (base ++ dirs ++ [name]) = some (.file []) ∧
      ∀ content t'', (∀ place, t''.entry place =
        if place = base ++ dirs ++ [name] then some (.file content) else t'.entry place) →
          Extracted t base [(dirs ++ [name], content)] t'' := by
  have hproper : ∀ p, p <+: dirs → p <+: dirs ++ [name] ∧ p ≠ dirs ++ [name] := fun p hp =>
    ⟨hp.trans (List.prefix_append dirs [name]), fun heq => by
      have hlength := hp.length_le
      rw [heq, List.length_append, List.length_singleton] at hlength
      omega⟩
  obtain ⟨hmade, hframe⟩ := entry_mkdirs hdir fun p hp =>
    hroom.way p (hproper p hp).1 (hproper p hp).2
  have hplace : (t.mkdirs base dirs).entry (base ++ dirs ++ [name]) =
      t.entry (base ++ (dirs ++ [name])) := by
    rw [List.append_assoc]
    refine hframe _ fun p hp heq => (hproper p hp).2 ?_
    exact (List.append_cancel_left heq).symm
  obtain ⟨t', hcreate, hentry⟩ := exists_create (hmade dirs (List.prefix_refl dirs))
    (by rw [hplace]; exact hroom.place)
  refine ⟨t', hcreate, by rw [hentry, if_pos rfl], fun content t'' ht'' => ?_⟩
  have hother : ∀ p, p <+: dirs → base ++ p ≠ base ++ dirs ++ [name] := fun p hp heq => by
    rw [List.append_assoc] at heq
    exact (hproper p hp).2 (List.append_cancel_left heq)
  constructor
  · intro f hf
    rw [List.mem_singleton.mp hf, ht'', if_pos (List.append_assoc base dirs [name]).symm]
  · intro f hf p hp hne
    rw [List.mem_singleton.mp hf] at hp hne
    have hp : p <+: dirs := by
      rcases List.prefix_concat_iff.mp hp with heq | hp
      · exact absurd heq hne
      · exact hp
    rw [ht'', if_neg (hother p hp), hentry, if_neg (hother p hp)]
    exact hmade p hp
  · intro place hplace'
    have hnew : place ≠ base ++ dirs ++ [name] := by
      rw [List.append_assoc]
      exact hplace' _ (List.mem_singleton.mpr rfl) _ (List.prefix_refl _)
    rw [ht'', if_neg hnew, hentry, if_neg hnew]
    exact hframe place fun p hp => hplace' _ (List.mem_singleton.mpr rfl) p (hproper p hp).1

end Extract

end FileTree

end Destor.Library
