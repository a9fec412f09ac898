import CrosKernel.Fs.BootSector

/-!
# The lowest free cluster

`find_free_cluster` looks at the numbers from 2 to `sectors_per_fat / sectors_per_cluster`, which is
not the number of words of the table. `findFreeCluster_lowest_iff` says for which tables its answer
is still the lowest free cluster of the data region.
-/

namespace CrosKernel.Fs

namespace BootSector

/-- The geometry of a volume: sectors of whole words, clusters of whole sectors, and a table that
ends below 2 GiB, where the `int` byte offsets do not overflow. -/
structure IsGeometry (b : BootSector) : Prop where
  bytesPerSector_pos : 0 < b.bytesPerSector
  dvd_bytesPerSector : 4 ∣ b.bytesPerSector
  sectorsPerCluster_pos : 0 < b.sectorsPerCluster
  table_lt : (b.reservedSectors + b.sectorsPerFat) * b.bytesPerSector < 2 ^ 31

end BootSector

namespace FAT32

variable {fs : FAT32} {b : BootSector} {di : DiskInterface} {rootDir : EntryPtr}
  {entries : EntryPtr → Option Entry}

/-- The low 28 bits of the word of a free cluster are zero. -/
def HasFreeWord (fs : FAT32) (c : Nat) : Prop := fs.fatWord c % 2 ^ 28 = 0

theorem isFree_iff (c : Nat) : fs.IsFree c ↔ fs.HasFreeWord c := by
  unfold IsFree HasFreeWord checkFatEntryType
  rw [show 0xFFFFFFF = 2 ^ 28 - 1 from rfl, Nat.and_two_pow_sub_one_eq_mod]
  by_cases hend : fs.fatWord c = 0xFFFFFFFF
  · rw [if_pos hend, hend]
    decide
  · rw [if_neg hend]
    by_cases hfree : fs.fatWord c % 2 ^ 28 = 0
    · rw [if_pos hfree]
      exact iff_of_true rfl hfree
    · rw [if_neg hfree]
      refine iff_of_false (fun h => ?_) hfree
      dsimp only at h
      split_ifs at h

theorem volume_wordSectors (hb : b.IsGeometry) (hdi : di.bytesPerSector = b.bytesPerSector) :
    (b.volume di rootDir entries).WordSectors :=
  ⟨hdi, hb.bytesPerSector_pos, hb.dvd_bytesPerSector, rfl⟩

/-- `r` is the lowest free cluster of the data region, or 0 when none is free. -/
def IsLowestFree (fs : FAT32) (b : BootSector) (r : Nat) : Prop :=
  (b.IsCluster r ∧ fs.HasFreeWord r ∧ ∀ c, b.IsCluster c → c < r → ¬ fs.HasFreeWord c) ∨
    (r = 0 ∧ ∀ c, b.IsCluster c → ¬ fs.HasFreeWord c)

/-- `find_free_cluster` returns the lowest free cluster if and only if, when some cluster of the
data region is free, one below the bound of the search is, and when none is, no other word below
this bound is free. -/
theorem findFreeCluster_lowest_iff (hb : b.IsGeometry)
    (hdi : di.bytesPerSector = b.bytesPerSector) :
    (∃ r, (b.volume di rootDir entries).findFreeCluster = some r ∧
        (b.volume di rootDir entries).IsLowestFree b r) ↔
      (∀ c, b.IsCluster c → (b.volume di rootDir entries).HasFreeWord c →
        ∃ d, b.IsCluster d ∧ (b.volume di rootDir entries).HasFreeWord d ∧
          d < b.sectorsPerFat / b.sectorsPerCluster) ∧
      ((∀ c, b.IsCluster c → ¬ (b.volume di rootDir entries).HasFreeWord c) →
        ∀ c, 2 ≤ c → c < b.sectorsPerFat / b.sectorsPerCluster →
          ¬ (b.volume di rootDir entries).HasFreeWord c) := by
  generalize hfs : b.volume di rootDir entries = fs
  have hsectors : fs.WordSectors := hfs ▸ volume_wordSectors hb hdi
  have hbound : fs.sectorsPerFat / fs.sectorsPerCluster =
      b.sectorsPerFat / b.sectorsPerCluster := by
    rw [← hfs]
    rfl
  rcases findFreeCluster_cases hsectors with ⟨hfound, hnone⟩ | ⟨s, hfound, hfirst⟩
  · -- nothing below the bound is free
    simp only [hbound, isFree_iff] at hnone
    constructor
    · rintro ⟨r, hr, ⟨hcluster, -, -⟩ | ⟨-, hall⟩⟩
      · obtain rfl := Option.some.inj (hfound.symm.trans hr)
        exact absurd hcluster.1 (by decide)
      · exact ⟨fun c hc hfree => absurd hfree (hall c hc), fun _ => hnone⟩
    · rintro ⟨hsome, -⟩
      refine ⟨0, hfound, .inr ⟨rfl, fun c hc hfree => ?_⟩⟩
      obtain ⟨d, hd, hdfree, hlt⟩ := hsome c hc hfree
      exact hnone d hd.1 hlt hdfree
  · have hlt : s < b.sectorsPerFat / b.sectorsPerCluster := hbound ▸ hfirst.lt_clustersPerFat
    have hfree : fs.HasFreeWord s := (isFree_iff s).1 hfirst.free
    have hbefore (c : Nat) (htwo : 2 ≤ c) (hc : c < s) : ¬ fs.HasFreeWord c :=
      fun hcfree => hfirst.before c htwo hc ((isFree_iff c).2 hcfree)
    by_cases hcluster : b.IsCluster s
    · refine iff_of_true ⟨s, hfound, .inl ⟨hcluster, hfree, fun c hc => hbefore c hc.1⟩⟩ ?_
      exact ⟨fun _ _ _ => ⟨s, hcluster, hfree, hlt⟩, fun hall => absurd hfree (hall s hcluster)⟩
    · -- the word that was found lies behind those of the data region
      have hbehind (c : Nat) (hc : b.IsCluster c) : c < s := by
        by_contra hle
        exact hcluster ⟨hfirst.two_le, Nat.lt_of_le_of_lt (Nat.not_lt.1 hle) hc.2⟩
      refine iff_of_false ?_ fun h => h.2 (fun c hc => hbefore c hc.1 (hbehind c hc)) s
        hfirst.two_le hlt hfree
      rintro ⟨r, hr, ⟨hc, -, -⟩ | ⟨rfl, -⟩⟩
      · obtain rfl := Option.some.inj (hfound.symm.trans hr)
        exact hcluster hc
      · exact hfirst.ne_zero (Option.some.inj (hfound.symm.trans hr))

/-- On a volume of eight sectors, whose table of one sector has 128 words, no word is looked at. -/
theorem findFreeCluster_lowest_iff_tiny :
    (∃ r, (tinyBootSector.volume ⟨512, fun _ => 0⟩ 0 fun _ => none).findFreeCluster = some r ∧
        (tinyBootSector.volume ⟨512, fun _ => 0⟩ 0 fun _ => none).IsLowestFree tinyBootSector r) ↔
      (∀ c, tinyBootSector.IsCluster c →
        (tinyBootSector.volume ⟨512, fun _ => 0⟩ 0 fun _ => none).HasFreeWord c →
        ∃ d, tinyBootSector.IsCluster d ∧
          (tinyBootSector.volume ⟨512, fun _ => 0⟩ 0 fun _ => none).HasFreeWord d ∧
          d < tinyBootSector.sectorsPerFat / tinyBootSector.sectorsPerCluster) ∧
      ((∀ c, tinyBootSector.IsCluster c →
          ¬ (tinyBootSector.volume ⟨512, fun _ => 0⟩ 0 fun _ => none).HasFreeWord c) →
        ∀ c, 2 ≤ c → c < tinyBootSector.sectorsPerFat / tinyBootSector.sectorsPerCluster →
          ¬ (tinyBootSector.volume ⟨512, fun _ => 0⟩ 0 fun _ => none).HasFreeWord c) :=
  findFreeCluster_lowest_iff ⟨by decide, by decide, by decide, by decide⟩ rfl

/-- All six clusters of that volume are free, but the search fails. -/
theorem findFreeCluster_misses :
    ¬ ∀ (b : BootSector) (di : DiskInterface) (rootDir : EntryPtr)
      (entries : EntryPtr → Option Entry), b.IsGeometry → di.bytesPerSector = b.bytesPerSector →
      ∃ r, (b.volume di rootDir entries).findFreeCluster = some r ∧
        (b.volume di rootDir entries).IsLowestFree b r := by
  intro hall
  obtain ⟨r, hr, hlowest⟩ := hall tinyBootSector ⟨512, fun _ => 0⟩ 0 (fun _ => none)
    ⟨by decide, by decide, by decide, by decide⟩ rfl
  have hzero : (0 : Nat) = r := Option.some.inj hr
  subst hzero
  rcases hlowest with ⟨hcluster, -, -⟩ | ⟨-, hnone⟩
  · exact absurd hcluster.1 (by decide)
  · exact hnone 2 ⟨by decide, by decide⟩ rfl

end FAT32

end CrosKernel.Fs
