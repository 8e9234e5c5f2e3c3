import Trona.Rtld.Library
import Trona.Rtld.Pe

/-!
# Writable or executable

Four programs decide on the permissions of an image: the two loaders, and the linkers for
libraries and for PE images. Three of them never ask for a page that is both writable and
executable, also where segments or sections share a page. The fourth gives a section of a
PE image what it asks for (`writeXorExecute_iff`).
-/

namespace Trona

/-- No mapping that a loader has asked for is both writable and executable. -/
def World.NoWx (w : World) : Prop :=
  ∀ v frame flags, LoadEvent.map v frame flags ∈ w.log → ¬WritableExecutable flags

section

variable {arch : Arch} {env : Env} {f : File} {loadBase : ℕ} {w : World}

theorem elfLoad_noWx (hw : w.Start) :
    wp (elfLoad arch env f loadBase) (fun _ => World.NoWx) (fun _ => World.NoWx) w := by
  have hmaps : ∀ w', ElfMaps arch f loadBase w' → w'.NoWx := by
    intro w' h v frame flags hev
    obtain ⟨plan, -, -, hwx⟩ := h v frame flags hev
    exact hwx
  exact wp_mono (elfLoad_maps hw) (fun _ w' h => hmaps w' h.1) fun _ w' h => hmaps w' h

theorem peLoad_noWx (hw : w.Start) :
    wp (peLoad arch env f loadBase) (fun _ => World.NoWx) (fun _ => World.NoWx) w := by
  refine wp_mono (peLoad_spec hw) (fun _ w' h v frame flags hev => ?_)
    fun _ w' h v frame flags hev => ?_
  · obtain ⟨info, -, hlaid⟩ := h
    exact (hlaid.maps v frame flags hev).2
  · obtain ⟨info, -, -, hwx⟩ := h v frame flags hev
    exact hwx

end

/-- For every file, library and PE image: whatever the kernel and the servers answer, and
    however a load ends, neither a mapping that `elf_load`, `pe_load` or
    `load_shared_library` asks for, nor a protection that the PE linker asks for, is both
    writable and executable, if and only if no section of the PE image asks for both. -/
theorem writeXorExecute_iff (arch : Arch) (f : File) (loadBase : ℕ) (cfg : Rtld.Config)
    (name : List UInt8) (loadAddr : ℕ) (m : Memory) (imageBase imageSize : ℕ) :
    ((∀ env w, w.Start →
        wp (elfLoad arch env f loadBase) (fun _ => World.NoWx) (fun _ => World.NoWx) w) ∧
      (∀ env w, w.Start →
        wp (peLoad arch env f loadBase) (fun _ => World.NoWx) (fun _ => World.NoWx) w) ∧
      (∀ env, Within (Rtld.Asks fun _ flags => ¬WritableExecutable flags)
        (Rtld.loadSharedLibrary cfg env name loadAddr)) ∧
      ∀ g answer, wp (PeRtld.applyPeImagePermissions arch m g answer imageBase imageSize)
        (fun _ => PeRtld.NoWx) (fun _ => PeRtld.NoWx) []) ↔
    ∀ img, PeRtld.peValidate arch m imageBase imageSize = .ok img →
      ∀ sec ∈ img.sectionHeaders m, ¬PeRtld.AsksWx sec := by
  rw [← PeRtld.permissions_wx_iff]
  refine ⟨fun h => h.2.2.2, fun h => ⟨fun env w hw => elfLoad_noWx hw,
    fun env w hw => peLoad_noWx hw, fun env => ?_, h⟩⟩
  exact Rtld.loadSharedLibrary_asks fun _ _ hflags => hflags

/-- A PE image with one section. -/
def peImage (characteristics : ℕ) : File where
  bytes := peHeaderBytes 1 0x400000 0x2000 0x200 ++ sectionBytes 0x1000 0x1000 0 0 characteristics
  length_lt := by simp [peHeaderBytes, coffBytes, optionalBytes, sectionBytes]

/-- What is found in the image when its section is writable only. -/
def peImageFound : PeRtld.Image :=
  resultOf (PeRtld.peValidate .x86_64 (.ofFile 0x400000 (peImage 0xC0000000)) 0x400000 0x2000)
    (by decide +kernel)

theorem writeXorExecute_iff_peImage :
    wp (PeRtld.applyPeImagePermissions .x86_64 (.ofFile 0x400000 (peImage 0xC0000000)) ⟨1, 1⟩
      (fun _ => 0) 0x400000 0x2000) (fun _ => PeRtld.NoWx) (fun _ => PeRtld.NoWx) [] := by
  have h := (writeXorExecute_iff .x86_64 (peImage 0xC0000000) 0x400000 ⟨0, 0, 0, by decide⟩ [] 0
    (.ofFile 0x400000 (peImage 0xC0000000)) 0x400000 0x2000).2 fun img himg => ?_
  · exact h.2.2.2 ⟨1, 1⟩ fun _ => 0
  · have heq : img = peImageFound := Except.ok.inj (himg.symm.trans (eq_ok_resultOf _))
    rw [heq]
    decide +kernel

/-- A section that is writable and executable gets a protection that is both. -/
theorem writeXorExecute_lost :
    wp (PeRtld.applyPeImagePermissions .x86_64 (.ofFile 0x400000 (peImage 0xE0000000)) ⟨1, 1⟩
      (fun _ => 0) 0x400000 0x2000)
      (fun _ log => log = [⟨0x400000, 0x1000, 1⟩, ⟨0x401000, 0x1000, 7⟩] ∧ ¬PeRtld.NoWx log)
      (fun _ _ => False) [] := by
  decide +kernel

end Trona
