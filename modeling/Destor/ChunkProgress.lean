/- digest: What each accepted configuration makes of the chunk phase: which cut, which bounds, and
   exactly when every file is cut to its end. -/

import Destor.ChunkPhase

set_option autoImplicit false
set_option relaxedAutoImplicit false

namespace Destor

open Library Library.Outcome

def ChunkSizes.IsInt (c : ChunkSizes) : Prop :=
  (-2 ^ 31 ≤ c.chunkAvgSize ∧ c.chunkAvgSize < 2 ^ 31) ∧
    (-2 ^ 31 ≤ c.chunkMinSize ∧ c.chunkMinSize < 2 ^ 31) ∧
    (-2 ^ 31 ≤ c.chunkMaxSize ∧ c.chunkMaxSize < 2 ^ 31)

/-- The algorithms that look for break marks of the rolling hash. -/
def ChunkAlgorithm.usesRabin : ChunkAlgorithm → Bool
  | .rabin | .normalizedRabin | .tttd => true
  | _ => false

/-- The algorithms that skip the minimum size. -/
def ChunkAlgorithm.contentDefined (a : ChunkAlgorithm) : Bool := a.usesRabin || a == .fastcdc

section Accepted

variable {aeWindow : Int → Int} {gear : UInt8 → UINT64} {c c' : ChunkSizes} {d : ChunkPhase}

private theorem pwrLoop_le {k : Nat} {avg : Int} {pwr r : Nat} (h : pwrLoop k avg pwr = some r) :
    r ≤ pwr + k := by
  induction k generalizing avg pwr with
  | zero => cases h
  | succ k ih =>
      rw [pwrLoop] at h
      split at h
      · cases h
        omega
      · have hle := ih h
        omega

private theorem roundAvgSize_ok {avg a : Int} (h : roundAvgSize avg = .ok a) :
    ∃ e, e ≤ 31 ∧ a = 2 ^ e := by
  rw [roundAvgSize] at h
  split at h
  · rename_i pwr hpwr
    have hle := pwrLoop_le hpwr
    cases h
    exact ⟨pwr, by omega, rfl⟩
  · cases h

/-- What the assertions of the three rolling algorithms leave. -/
theorem roundedSizes_ok (h : roundedSizes c = .ok c') : ∃ e, e ≤ 31 ∧
    c' = { c with chunkAvgSize := 2 ^ e } ∧ c.chunkMinSize ≤ 2 ^ e ∧ (2 : Int) ^ e ≤ c.chunkMaxSize ∧
    c.chunkMaxSize ≤ containerDataSize := by
  rw [roundedSizes] at h
  obtain ⟨avg, havg, h⟩ := bind_ok_iff.mp h
  obtain ⟨_, hmin, h⟩ := bind_ok_iff.mp h
  obtain ⟨_, hmax, h⟩ := bind_ok_iff.mp h
  obtain ⟨_, hdata, h⟩ := bind_ok_iff.mp h
  obtain ⟨e, he, rfl⟩ := roundAvgSize_ok havg
  cases h
  exact ⟨e, he, rfl, require_ok_iff.mp hmin, require_ok_iff.mp hmax, require_ok_iff.mp hdata⟩

private theorem start_rolling {algorithm : ChunkAlgorithm} (huses : algorithm.usesRabin = true)
    (h : startChunkPhase aeWindow gear algorithm c = .ok d) : roundedSizes c = .ok d.sizes ∧
      ((algorithm = .rabin ∧ d.chunking = rabinChunkData d.sizes) ∨
        (algorithm = .normalizedRabin ∧ d.chunking = normalizedRabinChunkData d.sizes) ∨
        (algorithm = .tttd ∧ d.chunking = tttdChunkData d.sizes)) := by
  cases algorithm with
  | rabin =>
      obtain ⟨sizes, hsizes, h⟩ := bind_ok_iff.mp h
      cases h
      exact ⟨hsizes, .inl ⟨rfl, rfl⟩⟩
  | normalizedRabin =>
      obtain ⟨sizes, hsizes, h⟩ := bind_ok_iff.mp h
      cases h
      exact ⟨hsizes, .inr (.inl ⟨rfl, rfl⟩)⟩
  | tttd =>
      obtain ⟨sizes, hsizes, h⟩ := bind_ok_iff.mp h
      cases h
      exact ⟨hsizes, .inr (.inr ⟨rfl, rfl⟩)⟩
  | fixed => cases huses
  | file => cases huses
  | ae => cases huses
  | fastcdc => cases huses

private theorem start_fixed (h : startChunkPhase aeWindow gear .fixed c = .ok d) :
    c.chunkAvgSize ≤ containerDataSize ∧
      d = { sizes := { c with chunkMaxSize := c.chunkAvgSize }
            chunking := fun p => .ok (fixedChunkData c p) } := by
  obtain ⟨_, havg, h⟩ := bind_ok_iff.mp h
  cases h
  exact ⟨require_ok_iff.mp havg, rfl⟩

/-- What the assertions for the asymmetric extremum leave. -/
theorem start_ae (h : startChunkPhase aeWindow gear .ae c = .ok d) :
    c.chunkAvgSize ≤ c.chunkMaxSize ∧ c.chunkMaxSize ≤ containerDataSize ∧
      d = { sizes := c
            chunking := fun p =>
              .ok (aeChunkData (aeWindow c.chunkAvgSize) c.chunkMaxSize p) } := by
  obtain ⟨_, havg, h⟩ := bind_ok_iff.mp h
  obtain ⟨_, hmax, h⟩ := bind_ok_iff.mp h
  cases h
  exact ⟨require_ok_iff.mp havg, require_ok_iff.mp hmax, rfl⟩

private theorem start_fastcdc (hint : c.IsInt)
    (h : startChunkPhase aeWindow gear .fastcdc c = .ok d) : ∃ f,
      d = { sizes := c, chunking := fastcdcChunkData gear f } ∧ fastcdcInit c = .ok f ∧
      128 ≤ c.chunkAvgSize ∧ c.chunkAvgSize ≤ c.chunkMaxSize ∧ c.chunkMaxSize ≤ containerDataSize ∧
      f.minSize = toUint32 c.chunkMinSize ∧ (f.maxSize : Int) = c.chunkMaxSize ∧
      (f.expectSize : Int) = c.chunkAvgSize := by
  obtain ⟨_, havg, h⟩ := bind_ok_iff.mp h
  obtain ⟨_, hmax, h⟩ := bind_ok_iff.mp h
  obtain ⟨f, hf, h⟩ := bind_ok_iff.mp h
  cases h
  have havg := require_ok_iff.mp havg
  have hmax := require_ok_iff.mp hmax
  obtain ⟨hlow, hhigh, hmin, hmaxsize, hexpect⟩ := fastcdcInit_ok hint.1.2 hint.1.1 hf
  refine ⟨f, rfl, hf, hlow, havg, hmax, hmin, ?_, hexpect⟩
  have hdata : containerDataSize < 2 ^ 31 := by decide
  rw [hmaxsize, toUint32]
  omega

end Accepted

section Cuts

variable {aeWindow : Int → Int} {gear : UInt8 → UINT64} {c : ChunkSizes} {d : ChunkPhase}

/-- What is known of the cut that a configuration makes. -/
private structure WellCut (d : ChunkPhase) (lower : Int) (cut : List UInt8 → Nat) : Prop where
  cutBy : d.CutBy cut
  isLocal : LocalCut d.sizes.chunkMaxSize.toNat cut
  le_max : ∀ p, p ≠ [] → (cut p : Int) ≤ d.sizes.chunkMaxSize
  ge_min : ∀ p, p ≠ [] → lower ≤ cut p ∨ cut p = p.length

private theorem wellCut_fixed {avg : Int} {chunking : List UInt8 → Except Abort Int}
    (havg : 1 ≤ avg) (hd : d = { sizes := { c with chunkAvgSize := avg, chunkMaxSize := avg }
                                 chunking := chunking })
    (hchunking : ∀ p, chunking p = .ok (if (p.length : Int) < avg then (p.length : Int) else avg)) :
    WellCut d 1 fun p => min p.length avg.toNat := by
  subst hd
  have hpos : ∀ p : List UInt8, p ≠ [] → 1 ≤ min p.length avg.toNat := by
    intro p hp
    have hlen := List.length_pos_iff.mpr hp
    omega
  refine ⟨⟨havg, fun p _ _ => ?_, ⟨hpos, fun p _ => by omega⟩⟩, fun p hp => ?_, fun p _ => ?_,
    fun p hp => .inl ?_⟩
  · show chunking p = _
    rw [hchunking]
    split <;> exact congrArg Except.ok (by omega)
  · show min (p.take avg.toNat).length avg.toNat = min p.length avg.toNat
    have hp : avg.toNat ≤ p.length := hp
    rw [List.length_take]
    omega
  · show ((min p.length avg.toNat : Nat) : Int) ≤ avg
    omega
  · have hcut := hpos p hp
    show (1 : Int) ≤ ((min p.length avg.toNat : Nat) : Int)
    omega

private theorem wellCut_rolling {cut : List UInt8 → Nat} (hc : d.sizes.Ordered)
    (hchunking : ∀ p, d.chunking p = .ok (cut p : Int))
    (hbounds : ∀ p, p ≠ [] → 1 ≤ cut p ∧ cut p ≤ p.length ∧ (cut p : Int) ≤ d.sizes.chunkMaxSize ∧
      (d.sizes.chunkMinSize ≤ cut p ∨ cut p = p.length))
    (htake : ∀ p : List UInt8, d.sizes.chunkMaxSize ≤ p.length →
      cut (p.take d.sizes.chunkMaxSize.toNat) = cut p) :
    WellCut d d.sizes.chunkMinSize cut := by
  have hmin := hc.min_pos
  have hmax := hc.min_le_max
  refine ⟨⟨by omega, fun p _ _ => hchunking p, ⟨fun p hp => (hbounds p hp).1,
    fun p hp => (hbounds p hp).2.1⟩⟩, fun p hp => htake p (by omega),
    fun p hp => (hbounds p hp).2.2.1, fun p hp => (hbounds p hp).2.2.2⟩

private theorem wellCut_firstMark {mark : Int → UINT64 → Bool} (hc : d.sizes.Ordered)
    (hchunking : ∀ p, d.chunking p = .ok (firstMark p d.sizes mark : Int)) :
    WellCut d d.sizes.chunkMinSize fun p => firstMark p d.sizes mark :=
  wellCut_rolling hc hchunking (fun p hp => firstMark_bounds p hc hp mark)
    fun p hp => firstMark_take p hc mark hp

private theorem wellCut_of_rolling {algorithm : ChunkAlgorithm} (huses : algorithm.usesRabin = true)
    (h : startChunkPhase aeWindow gear algorithm c = .ok d) (hmin : 1 ≤ c.chunkMinSize) :
    d.sizes.chunkMinSize = c.chunkMinSize ∧ ∃ cut, WellCut d d.sizes.chunkMinSize cut := by
  obtain ⟨hsizes, hchunking⟩ := start_rolling huses h
  obtain ⟨e, _, heq, havg, hmax, _⟩ := roundedSizes_ok hsizes
  have hc : d.sizes.Ordered := by
    rw [heq]
    exact ⟨hmin, by show c.chunkMinSize ≤ c.chunkMaxSize; omega⟩
  refine ⟨by rw [heq], ?_⟩
  obtain ⟨_, hrabin⟩ | ⟨_, hnormalized⟩ | ⟨_, htttd⟩ := hchunking
  · exact ⟨_, wellCut_firstMark hc fun p => (congrFun hrabin p).trans (rabinChunkData_eq p hc)⟩
  · exact ⟨_, wellCut_firstMark hc fun p =>
      (congrFun hnormalized p).trans (normalizedRabinChunkData_eq p hc)⟩
  · exact ⟨_, wellCut_rolling hc (fun p => (congrFun htttd p).trans (tttdChunkData_eq p hc))
      (fun p hp => backupMark_bounds p hc hp) fun p hp => backupMark_take p hc hp⟩

def maskSOf (avg : Int) : UINT64 := conditionMask.getD (Nat.log2 (toUint32 avg) + 1) 0

private theorem fastcdc_maskS {f : FastcdcParams} (h : fastcdcInit c = .ok f) :
    f.maskS = maskSOf c.chunkAvgSize := by
  rw [fastcdcInit] at h
  obtain ⟨_, _, h⟩ := bind_ok_iff.mp h
  obtain ⟨_, _, h⟩ := bind_ok_iff.mp h
  cases h
  rfl

private theorem cutBy_fastcdc (hint : c.IsInt) (h : startChunkPhase aeWindow gear .fastcdc c = .ok d)
    (hpos : c.chunkMinSize ≠ 0 ∨ ∀ b, gear b &&& maskSOf c.chunkAvgSize ≠ 0) :
    ∃ f, f.minSize = toUint32 c.chunkMinSize ∧ (f.maxSize : Int) = c.chunkMaxSize ∧
      d.sizes = c ∧ 1 ≤ f.expectSize ∧ (f.minSize ≠ 0 ∨ ∀ b, gear b &&& f.maskS ≠ 0) ∧
      d.CutBy (gearCut gear f) := by
  obtain ⟨f, hd, hf, havg, hle, hdata, hminsize, hmaxsize, hexpect⟩ := start_fastcdc hint h
  have hmask := fastcdc_maskS hf
  have hdata31 : containerDataSize + defaultBlockSize < 2 ^ 31 := by decide
  have hblock : 0 ≤ (defaultBlockSize : Int) := Int.natCast_nonneg _
  have hpos' : f.minSize ≠ 0 ∨ ∀ b, gear b &&& f.maskS ≠ 0 := by
    rw [hmask, hminsize]
    refine hpos.imp_left fun hne hzero => hne ?_
    have hrange := hint.2.1
    rw [toUint32] at hzero
    omega
  refine ⟨f, hminsize, hmaxsize, by rw [hd], by omega, hpos', ?_⟩
  subst hd
  refine ⟨?_, fun p hp hfits => ?_, ⟨fun p hp => ?_, fun p hp => ?_⟩⟩
  · show 1 ≤ c.chunkMaxSize
    omega
  · have hfits : (p.length : Int) ≤ defaultBlockSize + c.chunkMaxSize := hfits
    exact fastcdcChunkData_eq (by omega) (by omega) (by omega)
  · exact (gearCut_bounds gear hp (by omega) (by omega) hpos').1
  · exact (gearCut_bounds gear hp (by omega) (by omega) hpos').2.1

private theorem cutBy_ae (h : startChunkPhase aeWindow gear .ae c = .ok d)
    (hmax : 1 ≤ c.chunkMaxSize) :
    d.CutBy fun p => (aeChunkData (aeWindow c.chunkAvgSize) c.chunkMaxSize p).toNat := by
  obtain ⟨_, _, rfl⟩ := start_ae h
  have hbounds : ∀ p : List UInt8, p ≠ [] →
      1 ≤ aeChunkData (aeWindow c.chunkAvgSize) c.chunkMaxSize p ∧
        aeChunkData (aeWindow c.chunkAvgSize) c.chunkMaxSize p ≤ p.length :=
    fun p hp => aeChunkData_bounds hp
  refine ⟨hmax, fun p hp _ => ?_, ⟨fun p hp => ?_, fun p hp => ?_⟩⟩
  · have hcut := hbounds p hp
    exact congrArg Except.ok (by omega)
  · have hcut := hbounds p hp
    omega
  · have hcut := hbounds p hp
    omega

end Cuts

section MaximumSize

variable {aeWindow : Int → Int} {gear : UInt8 → UINT64} {c : ChunkSizes} {d : ChunkPhase}

/-- The chunk at the front of a buffer has a byte at least, and neither more bytes than there are nor
more than the maximum size. -/
def CutWithinMax (d : ChunkPhase) (p : List UInt8) : Prop :=
  ∃ size, d.chunking p = .ok size ∧ 1 ≤ size ∧ size ≤ p.length ∧ size ≤ d.sizes.chunkMaxSize

/-- A cut at the asymmetric extremum respects the maximum size exactly if the buffer does, or if the
loop runs and stops by that size. -/
theorem ae_cutWithinMax_iff (aeWindow : Int → Int) (gear : UInt8 → UINT64)
    (hstart : startChunkPhase aeWindow gear .ae c = .ok d)
    (hwindow : 0 < aeWindow c.chunkAvgSize) (p : List UInt8) (hp : p ≠ []) :
    CutWithinMax d p ↔ (p.length : Int) ≤ c.chunkMaxSize ∨
      (aeWindow c.chunkAvgSize + 8 < p.length ∧
        AeStopsInTime (aeWindow c.chunkAvgSize) c.chunkMaxSize p) := by
  obtain ⟨_, _, rfl⟩ := start_ae hstart
  obtain ⟨hpos, hlen⟩ : 1 ≤ aeChunkData (aeWindow c.chunkAvgSize) c.chunkMaxSize p ∧
      aeChunkData (aeWindow c.chunkAvgSize) c.chunkMaxSize p ≤ p.length := aeChunkData_bounds hp
  rw [← aeChunkData_le_iff hwindow]
  constructor
  · rintro ⟨size, hsize, _, _, hle⟩
    cases hsize
    exact hle
  · intro hle
    exact ⟨_, rfl, hpos, hlen, hle⟩

def defaultChunkSizes : ChunkSizes :=
  { chunkAvgSize := 8192, chunkMinSize := 1024, chunkMaxSize := 65536 }

private def shortChunkSizes : ChunkSizes :=
  { chunkAvgSize := 8, chunkMinSize := 1, chunkMaxSize := 16 }

private def ascendingBytes : List UInt8 := (List.range 40).map UInt8.ofNat

/-- The first of ascending windows is the least: the loop stops one window behind it. -/
theorem ae_cutWithinMax_iff_ascending : ∃ d, startChunkPhase (fun _ => 4) (fun _ => 0) .ae
    shortChunkSizes = .ok d ∧ CutWithinMax d ascendingBytes := by
  have hstart : startChunkPhase (fun _ => 4) (fun _ => 0) .ae shortChunkSizes =
      .ok { sizes := shortChunkSizes, chunking := fun p => .ok (aeChunkData 4 16 p) } := rfl
  refine ⟨_, hstart, (ae_cutWithinMax_iff (fun _ => 4) (fun _ => 0) hstart (by decide) ascendingBytes
    (by decide)).mpr (Or.inr ⟨by decide, Or.inl ⟨0, by decide, by decide, by simp, ?_⟩⟩)⟩
  intro j hpos hle
  have hall : ∀ j < 5, 0 < j → windowValue ascendingBytes 0 < windowValue ascendingBytes j := by
    decide
  exact hall j (by omega) hpos

private theorem not_aeStopsInTime_zeros (n : Nat) {windowSize chunkMaxSize : Int}
    (hwindow : 0 < windowSize) : ¬ AeStopsInTime windowSize chunkMaxSize (List.replicate n 0) := by
  have hzero : ∀ m : Nat, (List.replicate m (0 : UInt8)).foldl (fun v b => 256 * v + b.toNat) 0 = 0 := by
    intro m
    induction m with
    | zero => rfl
    | succ m ih => exact ih
  have hwindows : ∀ i, windowValue (List.replicate n 0) i = 0 := by
    intro i
    rw [windowValue, List.drop_replicate, List.take_replicate]
    exact hzero _
  rintro (⟨m, _, _, _, hafter⟩ | ⟨_, j, _, hlt⟩)
  · have hlt := hafter (m + 1) (by omega) (by omega)
    rw [hwindows, hwindows] at hlt
    omega
  · rw [hwindows, hwindows] at hlt
    omega

private theorem not_cutWithinMax_zeros (aeWindow : Int → Int) (gear : UInt8 → UINT64)
    (hstart : startChunkPhase aeWindow gear .ae c = .ok d)
    (hwindow : 0 < aeWindow c.chunkAvgSize) {n : Nat} (hn : c.chunkMaxSize < n) :
    ¬ CutWithinMax d (List.replicate n 0) := by
  obtain ⟨_, _, rfl⟩ := start_ae hstart
  rintro ⟨size, hsize, _, _, hle⟩
  rw [Except.ok.injEq] at hsize
  rw [← hsize] at hle
  have hcases := (aeChunkData_le_iff hwindow).mp hle
  rw [List.length_replicate] at hcases
  obtain hle | ⟨_, hstops⟩ := hcases
  · omega
  · exact not_aeStopsInTime_zeros _ hwindow hstops

/-- A file of 100000 zero bytes with the default sizes. -/
theorem ae_cut_beyond_max : ∃ d, startChunkPhase (fun _ => 4767) (fun _ => 0) .ae
    defaultChunkSizes = .ok d ∧ ¬ CutWithinMax d (List.replicate 100000 0) :=
  ⟨_, rfl, not_cutWithinMax_zeros (fun _ => 4767) (fun _ => 0) (c := defaultChunkSizes) rfl
    (by decide) (by decide)⟩

end MaximumSize

section Refinement

variable {aeWindow : Int → Int} {gear : UInt8 → UINT64} {c : ChunkSizes} {d : ChunkPhase}

/-- TTTD refines Rabin exactly if the rounded average is not 128 or no tested place has a break mark:
the backup mask of that average is too narrow for the break value. -/
theorem tttd_refines_rabin_iff (aeWindow : Int → Int) (gear : UInt8 → UINT64)
    (hstart : startChunkPhase aeWindow gear .tttd c = .ok d)
    (hmin : 1 ≤ c.chunkMinSize) (p : List UInt8) :
    TttdRefinesRabin d.sizes p ↔
      d.sizes.chunkAvgSize ≠ 128 ∨ ∀ i, ¬ MainMark d.sizes p i := by
  obtain ⟨hsizes, _⟩ := start_rolling rfl hstart
  obtain ⟨e, he, heq, havg, hmax, _⟩ := roundedSizes_ok hsizes
  have hc : d.sizes.Ordered := by
    rw [heq]
    exact ⟨hmin, by show c.chunkMinSize ≤ c.chunkMaxSize; omega⟩
  exact tttdRefinesRabin_iff (e := e) hc (by omega) (by rw [heq])

def smallAverage : ChunkSizes :=
  { chunkAvgSize := 200, chunkMinSize := 1, chunkMaxSize := 512 }

def smallRounded : ChunkSizes := { smallAverage with chunkAvgSize := 128 }

private theorem start_smallAverage : startChunkPhase (fun _ => 1) (fun _ => 0) .tttd smallAverage =
    .ok { sizes := smallRounded, chunking := tttdChunkData smallRounded } := by
  have hrounded : roundedSizes smallAverage = .ok smallRounded := by decide +kernel
  exact (congrArg (· >>= _) hrounded).trans rfl

theorem tttd_refines_rabin_iff_128 : TttdRefinesRabin smallRounded [0x78, 0] ↔
    smallRounded.chunkAvgSize ≠ 128 ∨ ∀ i, ¬ MainMark smallRounded [0x78, 0] i :=
  tttd_refines_rabin_iff (fun _ => 1) (fun _ => 0) start_smallAverage (by decide) [0x78, 0]

/-- The byte 120 is a break mark: Rabin cuts behind it, TTTD at the end. -/
theorem tttd_behind_rabin : ∃ d, startChunkPhase (fun _ => 1) (fun _ => 0) .tttd
    { chunkAvgSize := 200, chunkMinSize := 1, chunkMaxSize := 512 } = .ok d ∧
    rabinChunkData d.sizes [0x78, 0] = .ok 1 ∧ d.chunking [0x78, 0] = .ok 2 ∧
    ¬ TttdRefinesRabin d.sizes [0x78, 0] := by
  have hrabin : rabinChunkData smallRounded [0x78, 0] = .ok 1 := by decide +kernel
  have htttd : tttdChunkData smallRounded [0x78, 0] = .ok 2 := by decide +kernel
  refine ⟨_, start_smallAverage, hrabin, htttd, ?_⟩
  rintro ⟨r, t, hr, ht, hle, _⟩
  rw [hrabin, Except.ok.injEq] at hr
  rw [htttd, Except.ok.injEq] at ht
  omega

end Refinement

section Progress

variable {aeWindow : Int → Int} {gear : UInt8 → UINT64} {c : ChunkSizes} {d : ChunkPhase}

/-- The sizes with which a configuration takes something of every buffer. -/
def AlwaysAdvances (gear : UInt8 → UINT64) (algorithm : ChunkAlgorithm) (c : ChunkSizes) : Prop :=
  match algorithm with
  | .fixed => 1 ≤ c.chunkAvgSize
  | .file => True
  | .rabin | .normalizedRabin | .tttd => 1 ≤ c.chunkMinSize
  | .ae => 1 ≤ c.chunkMaxSize
  | .fastcdc => c.chunkMinSize ≠ 0 ∨ ∀ b, gear b &&& maskSOf c.chunkAvgSize ≠ 0

theorem cutBy_of_advances (hint : c.IsInt) {algorithm : ChunkAlgorithm}
    (hstart : startChunkPhase aeWindow gear algorithm c = .ok d)
    (h : AlwaysAdvances gear algorithm c) : ∃ cut, d.CutBy cut := by
  cases algorithm with
  | fixed =>
      obtain ⟨_, hd⟩ := start_fixed hstart
      exact ⟨_, (wellCut_fixed h hd fun _ => rfl).cutBy⟩
  | file =>
      cases hstart
      have havg : 1 ≤ containerDataSize := by decide
      exact ⟨_, (wellCut_fixed havg rfl fun _ => rfl).cutBy⟩
  | rabin =>
      obtain ⟨_, cut, hcut⟩ := wellCut_of_rolling rfl hstart h
      exact ⟨cut, hcut.cutBy⟩
  | normalizedRabin =>
      obtain ⟨_, cut, hcut⟩ := wellCut_of_rolling rfl hstart h
      exact ⟨cut, hcut.cutBy⟩
  | tttd =>
      obtain ⟨_, cut, hcut⟩ := wellCut_of_rolling rfl hstart h
      exact ⟨cut, hcut.cutBy⟩
  | ae => exact ⟨_, cutBy_ae hstart h⟩
  | fastcdc =>
      obtain ⟨f, _, _, _, _, _, hcut⟩ := cutBy_fastcdc hint hstart h
      exact ⟨_, hcut⟩

private theorem rolling_stuck {algorithm : ChunkAlgorithm} (huses : algorithm.usesRabin = true)
    (hstart : startChunkPhase aeWindow gear algorithm c = .ok d) (hmin : c.chunkMinSize ≤ 0)
    (b : UInt8) : d.chunking [b] = .error .chunkBuffer := by
  obtain ⟨hsizes, hchunking⟩ := start_rolling huses hstart
  obtain ⟨e, _, heq, havg, hmax, _⟩ := roundedSizes_ok hsizes
  have hpow : (0 : Int) < 2 ^ e := Int.pow_pos (by decide)
  have hminsize : d.sizes.chunkMinSize ≤ 0 := by rw [heq]; exact hmin
  have hshort : ¬ (([b] : List UInt8).length : Int) ≤ d.sizes.chunkMinSize := by
    rw [List.length_singleton]
    omega
  have hplaces : testedPlaces d.sizes ([b] : List UInt8).length =
      (testedPlaces d.sizes ([b] : List UInt8).length - 1) + 1 := by
    have hend : 1 ≤ chunkEnd d.sizes ([b] : List UInt8).length := by
      rw [chunkEnd, heq]
      show 1 ≤ if c.chunkMaxSize < (([b] : List UInt8).length : Int) then c.chunkMaxSize
        else (([b] : List UInt8).length : Int)
      rw [List.length_singleton]
      split <;> omega
    rw [testedPlaces]
    omega
  obtain ⟨_, hrabin⟩ | ⟨_, hnormalized⟩ | ⟨_, htttd⟩ := hchunking
  · rw [hrabin, rabinChunkData, if_neg hshort, hplaces]
    exact breakLoop_of_min_le_zero _ _ _ hminsize _
  · rw [hnormalized, normalizedRabinChunkData, if_neg hshort, hplaces]
    exact breakLoop_of_min_le_zero _ _ _ hminsize _
  · rw [htttd, tttdChunkData, if_neg hshort, hplaces]
    exact tttdLoop_of_min_le_zero _ _ _ _ hminsize _ _

private theorem fastcdc_stuck (hint : c.IsInt)
    (hstart : startChunkPhase aeWindow gear .fastcdc c = .ok d) (hmin : c.chunkMinSize = 0) {b : UInt8}
    (hb : gear b &&& maskSOf c.chunkAvgSize = 0) : d.chunking [b] = .ok 0 := by
  obtain ⟨f, hd, hf, havg, hle, hdata, hminsize, hmaxsize, hexpect⟩ := start_fastcdc hint hstart
  have hmask := fastcdc_maskS hf
  have hdata31 : containerDataSize < 2 ^ 31 := by decide
  have hzero : f.minSize = 0 := by
    rw [hminsize, hmin]
    rfl
  subst hd
  show fastcdcChunkData gear f [b] = _
  rw [fastcdcChunkData_eq (by omega) (by omega) (by rw [List.length_singleton]; decide),
    gearCut_zero hzero (by omega) (by omega) (by rw [hmask]; exact hb)]
  rfl

/-- Every file is cut to its end, whatever the blocks, exactly with the sizes that `AlwaysAdvances`
names; otherwise there is a file of one byte that is not. -/
theorem chunking_progress_iff (aeWindow : Int → Int) (gear : UInt8 → UINT64)
    (algorithm : ChunkAlgorithm) (hint : c.IsInt)
    (hstart : startChunkPhase aeWindow gear algorithm c = .ok d) :
    (∀ blocks rest, ReadBlocks blocks → ReachesFileEnd d blocks rest) ↔
      AlwaysAdvances gear algorithm c := by
  constructor
  · intro hall
    have hone : ∀ b : UInt8, ReachesFileEnd d [[b]] [] := by
      intro b
      apply hall
      intro x hx
      rw [List.mem_singleton.mp hx]
      exact ⟨List.cons_ne_nil b [], by rw [List.length_singleton]; decide⟩
    have hrolling : algorithm.usesRabin = true → 1 ≤ c.chunkMinSize := by
      intro huses
      by_contra hmin
      refine not_reachesFileEnd_of_stuck 0 (fun size hsize => ?_) (hone 0)
      rw [rolling_stuck huses hstart (by omega)] at hsize
      cases hsize
    cases algorithm with
    | fixed =>
        obtain ⟨_, hd⟩ := start_fixed hstart
        by_contra havg
        have havg : ¬ 1 ≤ c.chunkAvgSize := havg
        refine not_reachesFileEnd_of_max ?_ 0 (hone 0)
        rw [hd]
        show c.chunkAvgSize ≤ 0
        omega
    | file => trivial
    | rabin => exact hrolling rfl
    | normalizedRabin => exact hrolling rfl
    | tttd => exact hrolling rfl
    | ae =>
        obtain ⟨_, _, hd⟩ := start_ae hstart
        by_contra hmax
        have hmax : ¬ 1 ≤ c.chunkMaxSize := hmax
        refine not_reachesFileEnd_of_max ?_ 0 (hone 0)
        rw [hd]
        show c.chunkMaxSize ≤ 0
        omega
    | fastcdc =>
        by_contra hstuck
        have hstuck : ¬ (c.chunkMinSize ≠ 0 ∨ ∀ b, gear b &&& maskSOf c.chunkAvgSize ≠ 0) := hstuck
        push Not at hstuck
        obtain ⟨hmin, b, hb⟩ := hstuck
        refine not_reachesFileEnd_of_stuck b (fun size hsize => ?_) (hone b)
        rw [fastcdc_stuck hint hstart hmin hb] at hsize
        cases hsize
        exact Int.le_refl 0
  · intro hadvances blocks rest hblocks
    obtain ⟨cut, hcut⟩ := cutBy_of_advances hint hstart hadvances
    exact reachesFileEnd_of_cut hcut hblocks rest

theorem chunking_progress_iff_default :
    (∀ blocks rest, ReadBlocks blocks → ReachesFileEnd
      { sizes := { defaultChunkSizes with chunkMaxSize := 8192 }
        chunking := fun p => .ok (fixedChunkData defaultChunkSizes p) } blocks rest) ↔
      (1 : Int) ≤ 8192 :=
  chunking_progress_iff (fun _ => 1) (fun _ => 0) .fixed (c := defaultChunkSizes)
    (by unfold ChunkSizes.IsInt; decide) rfl

/-- Fixed-size chunking with an average of zero is accepted, and never ends on a byte. -/
theorem fixed_zero_never_ends : ∃ d, startChunkPhase (fun _ => 1) (fun _ => 0) .fixed
    { defaultChunkSizes with chunkAvgSize := 0 } = .ok d ∧ d.chunking [0] = .ok 0 ∧
    ¬ ReachesFileEnd d [[0]] [] :=
  ⟨_, rfl, rfl, not_reachesFileEnd_of_max (Int.le_refl 0) 0⟩

end Progress

section BytesOnly

variable {c : ChunkSizes} {d : ChunkPhase} {cut : List UInt8 → Nat}

/-- What `read_queue` holds of some files: a start with the name, the blocks, and the end. -/
def filesQueue (files : List (Chunk × List (List UInt8))) : List Chunk :=
  files.flatMap fun f => f.1 :: fileQueue f.2 []

def filesChunks (chunksOf : List UInt8 → List (List UInt8))
    (files : List (Chunk × List (List UInt8))) : List Chunk :=
  files.flatMap fun f => f.1 :: (chunksOf f.2.flatten).map dataChunk ++ [Chunk.fileEnd]

private theorem chunkThread_files (hd : d.CutBy cut)
    (hlocal : LocalCut d.sizes.chunkMaxSize.toNat cut) (k : Nat)
    (files : List (Chunk × List (List UInt8)))
    (hfiles : ∀ f ∈ files, f.1.flag.fileStart = true ∧ ReadBlocks f.2)
    (hk : (files.map fun f => f.2.flatten.length + 1).sum < k) :
    chunkThread d k (filesQueue files) = .ok (some (filesChunks (piecesOf cut) files)) := by
  induction files generalizing k with
  | nil =>
      obtain ⟨k, rfl⟩ : ∃ k', k = k' + 1 := ⟨k - 1, by omega⟩
      rfl
  | cons f files ih =>
      obtain ⟨start, blocks⟩ := f
      have hstart := (hfiles _ List.mem_cons_self).1
      have hblocks := (hfiles _ List.mem_cons_self).2
      rw [List.map_cons, List.sum_cons] at hk
      obtain ⟨k, rfl⟩ : ∃ k', k = k' + 1 := ⟨k - 1, by omega⟩
      have hqueue : filesQueue ((start, blocks) :: files) =
          start :: fileQueue blocks (filesQueue files) := by
        rw [filesQueue, List.flatMap_cons, fileQueue, fileQueue]
        simp [filesQueue]
      have hhead : blocks.flatten.length < k + 1 := by
        have hk : blocks.flatten.length + 1 + _ < k + 1 := hk
        omega
      have htail : (files.map fun f => f.2.flatten.length + 1).sum < k := by
        have hk : blocks.flatten.length + 1 + _ < k + 1 := hk
        omega
      obtain ⟨L, hrun, _, _, hpieces⟩ :=
        receiveBlock_chunkFile hd hblocks (filesQueue files) hhead
      obtain ⟨s, hreceive, hrun⟩ := bind_ok_iff.mp hrun
      have hrest := ih k (fun g hg => hfiles g (List.mem_cons_of_mem _ hg)) htail
      rw [hqueue, chunkThread, require_of hstart, hreceive]
      show (chunkFile d (k + 1) s >>= _) = _
      rw [hrun]
      show (do
        let rest ← chunkThread d k (filesQueue files)
        return rest.map fun out => start :: (L.map dataChunk ++ [Chunk.fileEnd]) ++ out) = _
      rw [hrest, hpieces hlocal]
      rfl

private theorem wellCut_of_ordered {aeWindow : Int → Int} {gear : UInt8 → UINT64}
    {algorithm : ChunkAlgorithm} (hint : c.IsInt) (halgorithm : algorithm ≠ .ae)
    (hmin : 1 ≤ c.chunkMinSize) (havg : c.chunkMinSize ≤ c.chunkAvgSize)
    (hstart : startChunkPhase aeWindow gear algorithm c = .ok d) :
    ∃ cut, WellCut d (if algorithm.contentDefined then d.sizes.chunkMinSize else 1) cut := by
  cases algorithm with
  | fixed =>
      obtain ⟨_, hd⟩ := start_fixed hstart
      have hd' : d = { sizes := { c with chunkAvgSize := c.chunkAvgSize, chunkMaxSize := c.chunkAvgSize }
                       chunking := fun p => .ok (fixedChunkData c p) } := hd
      exact ⟨_, wellCut_fixed (by omega) hd' fun _ => rfl⟩
  | file =>
      cases hstart
      have havg : 1 ≤ containerDataSize := by decide
      exact ⟨_, wellCut_fixed havg rfl fun _ => rfl⟩
  | rabin => exact (wellCut_of_rolling rfl hstart hmin).2
  | normalizedRabin => exact (wellCut_of_rolling rfl hstart hmin).2
  | tttd => exact (wellCut_of_rolling rfl hstart hmin).2
  | ae => exact absurd rfl halgorithm
  | fastcdc =>
      obtain ⟨f, hminsize, hmaxsize, hsizes, hexpect, hpos, hcut⟩ :=
        cutBy_fastcdc hint hstart (.inl (by omega))
      obtain ⟨_, _, _, _, hle, _, _, _, _⟩ := start_fastcdc hint hstart
      have hrange := hint.2.1
      have hminnat : (f.minSize : Int) = c.chunkMinSize := by
        rw [hminsize, toUint32]
        omega
      have hmaxnat : d.sizes.chunkMaxSize.toNat = f.maxSize := by
        rw [hsizes]
        omega
      have hbounds := fun p (hp : p ≠ []) =>
        gearCut_bounds gear hp hexpect (by omega : 1 ≤ f.maxSize) hpos
      refine ⟨_, hcut, fun p hp => ?_, fun p hp => ?_, fun p hp => ?_⟩
      · rw [hmaxnat] at hp ⊢
        exact gearCut_take (by omega) hp
      · have hcutmax := (hbounds p hp).2.2.2 (by omega)
        rw [hsizes]
        omega
      · have hcutmin := (hbounds p hp).2.2.1
        show (if ChunkAlgorithm.contentDefined .fastcdc then d.sizes.chunkMinSize else 1) ≤ _ ∨ _
        have hdefined : ChunkAlgorithm.contentDefined .fastcdc = true := rfl
        rw [hsizes, if_pos hdefined]
        omega

/-- A chunker other than the asymmetric extremum, with ordered sizes, cuts a file by its bytes alone:
wherever the blocks end, the same chunks leave the thread, within the bounds, and no buffer is
overrun. -/
theorem chunks_of_bytes (aeWindow : Int → Int) (gear : UInt8 → UINT64) (algorithm : ChunkAlgorithm)
    (hint : c.IsInt) (halgorithm : algorithm ≠ .ae) (hmin : 1 ≤ c.chunkMinSize)
    (havg : c.chunkMinSize ≤ c.chunkAvgSize)
    (hstart : startChunkPhase aeWindow gear algorithm c = .ok d) :
    ∃ chunksOf : List UInt8 → List (List UInt8),
      (∀ bytes, (chunksOf bytes).flatten = bytes ∧
        (∀ r ∈ chunksOf bytes, 1 ≤ r.length ∧ (r.length : Int) ≤ d.sizes.chunkMaxSize) ∧
        (algorithm.contentDefined = true →
          ∀ r ∈ (chunksOf bytes).dropLast, d.sizes.chunkMinSize ≤ r.length)) ∧
      ∀ files : List (Chunk × List (List UInt8)),
        (∀ f ∈ files, f.1.flag.fileStart = true ∧ ReadBlocks f.2) →
        ∃ k, chunkThread d k (filesQueue files) = .ok (some (filesChunks chunksOf files)) := by
  obtain ⟨cut, hcut⟩ := wellCut_of_ordered hint halgorithm hmin havg hstart
  have hcuts := hcut.cutBy.cuts
  refine ⟨piecesOf cut, fun bytes =>
    ⟨flatten_piecesOf hcuts bytes, fun r hr => ?_, fun hdefined r hr => ?_⟩,
    fun files hfiles =>
      ⟨_, chunkThread_files hcut.cutBy hcut.isLocal _ files hfiles (Nat.lt_succ_self _)⟩⟩
  · obtain ⟨s, hs, _, rfl⟩ := mem_piecesOf hcuts hr
    have hpos := hcuts.pos s hs
    have hle := hcuts.le_length s hs
    have hlemax := hcut.le_max s hs
    rw [List.length_take]
    omega
  · obtain ⟨s, hs, _, rfl, hlt⟩ := mem_dropLast_piecesOf hcuts hr
    have hge := hcut.ge_min s hs
    rw [if_pos hdefined] at hge
    rw [List.length_take]
    omega

theorem chunks_of_bytes_default : ∃ chunksOf : List UInt8 → List (List UInt8),
    (∀ bytes, (chunksOf bytes).flatten = bytes ∧
      (∀ r ∈ chunksOf bytes, 1 ≤ r.length ∧ (r.length : Int) ≤ 8192) ∧
      (ChunkAlgorithm.contentDefined .fixed = true →
        ∀ r ∈ (chunksOf bytes).dropLast, (1024 : Int) ≤ r.length)) ∧
    ∀ files : List (Chunk × List (List UInt8)),
      (∀ f ∈ files, f.1.flag.fileStart = true ∧ ReadBlocks f.2) →
      ∃ k, chunkThread
        { sizes := { defaultChunkSizes with chunkMaxSize := 8192 }
          chunking := fun p => .ok (fixedChunkData defaultChunkSizes p) } k (filesQueue files) =
        .ok (some (filesChunks chunksOf files)) :=
  chunks_of_bytes (fun _ => 1) (fun _ => 0) .fixed (c := defaultChunkSizes)
    (by unfold ChunkSizes.IsInt; decide) (by decide) (by decide) (by decide) rfl

end BytesOnly

end Destor
