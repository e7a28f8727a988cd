import TermRules.File.Source
import TermRules.Proofs.Registration

/-!
# File numbers

A registry that starts empty numbers its files from one without a gap, each
under its normal path. What a path comes to is settled by the first request for
it: later requests, for this or any other path, find the same number, or none if
there was none left. Loading asks for the number first, so that a file that
cannot be loaded has one as well.
-/

namespace TermRules

namespace FileData

theorem length_content (data : FileData) : data.content.length = data.size := by
  cases data with
  | bytes content => rfl
  | zeros size => exact List.length_replicate

theorem content_take (data : FileData) (n : Nat) :
    (data.take n).content = data.content.take n := by
  cases data with
  | bytes content => rfl
  | zeros size => exact List.take_replicate.symm

end FileData

/-- The file is small enough, there is memory for it, and no less is read than its size tells. -/
structure OpenFile.Loadable (file : OpenFile) : Prop where
  size_le : file.size ≤ Source.sizeLimit
  hasRoom : file.hasRoom = true
  size_le_data : file.size ≤ file.data.size

namespace Source

theorem read_eq_ok_iff {fs : FileSystem} {path text : Bytes} : read fs path = .ok text ↔
    ∃ file, fs path = some file ∧ file.Loadable ∧ file.data.content.take file.size = text := by
  rw [read]
  cases hfile : fs path with
  | none => simp
  | some file =>
    simp only [Option.some.injEq, exists_eq_left']
    split_ifs with hlarge hroom hshort
    · exact iff_of_false (by simp) fun h => absurd h.1.size_le (Nat.not_le.mpr hlarge)
    · exact iff_of_false (by simp) fun h => by simp [h.1.hasRoom] at hroom
    · exact iff_of_false (by simp) fun h => absurd h.1.size_le_data (Nat.not_le.mpr hshort)
    · have hloadable : file.Loadable :=
        ⟨Nat.le_of_not_lt hlarge, by simpa using hroom, Nat.le_of_not_lt hshort⟩
      rw [FileData.content_take, Except.ok.injEq]
      exact (and_iff_right hloadable).symm

example : read (fun _ => some ⟨4096, true, .bytes (ascii "65536")⟩) (ascii "mtu") =
    .error (.cannotRead (ascii "mtu")) := rfl

theorem length_of_read {file : OpenFile} (h : file.Loadable) :
    (file.data.content.take file.size).length = file.size := by
  rw [List.length_take, FileData.length_content, Nat.min_eq_left h.size_le_data]

def outcome (fs : FileSystem) (registry : Registry) (path : Bytes) : Except Diagnostic Source :=
  match registry.idOf? (Path.normal path) with
  | none => .error (LoadFault.numbersExhausted.diagnostic 0)
  | some file =>
      match read fs path with
      | .error fault => .error (fault.diagnostic file)
      | .ok text => .ok ⟨file, path, text⟩

theorem severity_outcome {fs : FileSystem} {registry : Registry} {path : Bytes} {d : Diagnostic}
    (h : outcome fs registry path = .error d) : d.severity = .error := by
  rw [outcome] at h
  split at h
  · cases h
    rfl
  · split at h <;> cases h
    rfl

theorem load_eq (fs : FileSystem) {r : Registry} (hr : r.Numbered) (path : Bytes) :
    load fs r path = (outcome fs (r.register path).2 path, (r.register path).2) := by
  have hnumber := r.fst_register path
  rw [load, outcome]
  rcases hregister : r.register path with ⟨file, r'⟩
  have hr' : r'.Numbered := by
    have hkept := hr.register path
    rwa [hregister] at hkept
  rw [hregister] at hnumber
  dsimp only at hnumber ⊢
  cases hid : r'.idOf? (Path.normal path) with
  | none =>
    rw [hid] at hnumber
    exact if_pos hnumber
  | some id =>
    rw [hid] at hnumber
    have hne : file ≠ 0 := fun hzero => hr'.ne_zero hid (hnumber.symm.trans hzero)
    rw [if_neg hne, show id = file from hnumber.symm]
    cases read fs path <;> rfl

theorem loadAll_eq (fs : FileSystem) {r : Registry} (hr : r.Numbered) (paths : List Bytes) :
    loadAll fs r paths = (paths.map (outcome fs (r.registerAll paths)), r.registerAll paths) := by
  induction paths generalizing r with
  | nil => rfl
  | cons path paths ih =>
    rw [loadAll, load_eq fs hr path]
    dsimp only
    rw [ih (hr.register path)]
    have hfirst : outcome fs (r.register path).2 path =
        outcome fs (r.registerAll (path :: paths)) path := by
      have hid : (r.registerAll (path :: paths)).idOf? (Path.normal path) = _ :=
        (r.settled_register path).registerAll paths
      rw [outcome, outcome, hid]
    rw [List.map_cons, ← hfirst]
    rfl

end Source

/-- A call that gives a path its number. Each loading sees the files as they are at the time. -/
inductive FileRequest
  | register (path : Bytes)
  | load (fs : FileSystem) (path : Bytes)

namespace FileRequest

def path : FileRequest → Bytes
  | .register path | .load _ path => path

def perform (r : Registry) : FileRequest → UInt32 × Registry
  | .register path => r.register path
  | .load fs path =>
      match Source.load fs r path with
      | (.ok s, r') => (s.file, r')
      | (.error d, r') => (d.loc.file, r')

end FileRequest

namespace Registry

def after (history : List FileRequest) : Registry :=
  history.foldl (fun r request => (request.perform r).2) .empty

end Registry

end TermRules
