import Mathlib.Algebra.Ring.Nat
import Mathlib.Logic.ExistsUnique

/-!
Segments that follow one another without gaps or overlaps, and segments whose position and
length are stored in fields of limited size. Nothing here names a particular program.
-/

namespace Estros

structure Segment where
  pos : Nat
  len : Nat
  deriving DecidableEq

def Segment.Holds (segment : Segment) (index : Nat) : Prop :=
  segment.pos ≤ index ∧ index < segment.pos + segment.len

instance (segment : Segment) (index : Nat) : Decidable (segment.Holds index) :=
  inferInstanceAs (Decidable (_ ∧ _))

/-- The first segment starts at `start`, each next one where the one before ends, and the
last ends at `stop`. -/
def Tiles (start : Nat) : List Segment → Nat → Prop
  | [], stop => start = stop
  | segment :: rest, stop => segment.pos = start ∧ Tiles (start + segment.len) rest stop

theorem tiles_stop {start stop : Nat} {segments : List Segment} (tiles : Tiles start segments stop) :
    start + (segments.map Segment.len).sum = stop := by
  induction segments generalizing start with
  | nil => exact tiles
  | cons segment rest ih =>
      have later := ih tiles.2
      rw [List.map_cons, List.sum_cons]
      omega

theorem tiles_start_le {start stop : Nat} {segments : List Segment}
    (tiles : Tiles start segments stop) : ∀ segment ∈ segments, start ≤ segment.pos := by
  induction segments generalizing start with
  | nil => exact fun _ member => absurd member List.not_mem_nil
  | cons head rest ih =>
      intro segment member
      rcases List.mem_cons.mp member with rfl | later
      · exact Nat.le_of_eq tiles.1.symm
      · exact Nat.le_trans (Nat.le_add_right _ _) (ih tiles.2 segment later)

/-- Every index between `start` and `stop` lies in exactly one of the segments. -/
theorem tiles_exactly_one {start stop : Nat} {segments : List Segment}
    (tiles : Tiles start segments stop) {index : Nat} (low : start ≤ index) (high : index < stop) :
    ∃! k : Nat, ∃ segment : Segment, segments[k]? = some segment ∧ segment.Holds index := by
  induction segments generalizing start with
  | nil =>
      have equal : start = stop := tiles
      omega
  | cons head rest ih =>
      obtain ⟨here, behind⟩ := tiles
      by_cases first : index < start + head.len
      · refine ⟨0, ⟨head, rfl, by omega, by omega⟩, ?_⟩
        rintro k ⟨segment, found, holds⟩
        cases k with
        | zero => rfl
        | succ k =>
            have later := tiles_start_le behind segment (List.mem_of_getElem? found)
            exact absurd holds.1 (by omega)
      · obtain ⟨k, ⟨segment, found, holds⟩, only⟩ := ih behind (by omega)
        refine ⟨k + 1, ⟨segment, found, holds⟩, ?_⟩
        rintro other ⟨segment, found, holds⟩
        cases other with
        | zero =>
            cases Option.some.inj found
            exact absurd holds.2 (by omega)
        | succ other => rw [only other ⟨segment, found, holds⟩]

/-- Segments of the given lengths one after the other, with the positions stored modulo
`posBound` and the lengths modulo `lenBound`. -/
def storedSegments (posBound lenBound : Nat) : Nat → List Nat → List Segment
  | _, [] => []
  | start, len :: rest =>
      ⟨start % posBound, len % lenBound⟩ :: storedSegments posBound lenBound (start + len) rest

def StoredExactly (posBound lenBound : Nat) : Nat → List Nat → Prop
  | _, [] => True
  | start, len :: rest =>
      start < posBound ∧ len < lenBound ∧ StoredExactly posBound lenBound (start + len) rest

theorem stored_sum_le (posBound lenBound start : Nat) (lengths : List Nat) :
    ((storedSegments posBound lenBound start lengths).map Segment.len).sum ≤ lengths.sum := by
  induction lengths generalizing start with
  | nil => exact Nat.le_refl _
  | cons len rest ih =>
      have later := ih (start + len)
      have reduced := Nat.mod_le len lenBound
      simp only [storedSegments, List.map_cons, List.sum_cons]
      omega

/-- Stored segments tile exactly where nothing was cut off in storing them. -/
theorem stored_tiles_iff {posBound lenBound : Nat} (somePos : 0 < posBound) (someLen : 0 < lenBound)
    (start : Nat) (lengths : List Nat) :
    Tiles start (storedSegments posBound lenBound start lengths) (start + lengths.sum) ↔
      StoredExactly posBound lenBound start lengths := by
  induction lengths generalizing start with
  | nil => exact ⟨fun _ => trivial, fun _ => rfl⟩
  | cons len rest ih =>
      have split : start + (len :: rest).sum = start + len + rest.sum := by
        rw [List.sum_cons, Nat.add_assoc]
      rw [storedSegments, Tiles, StoredExactly, split]
      constructor
      · rintro ⟨here, behind⟩
        have whole : len % lenBound = len := by
          have total := tiles_stop behind
          have rest := stored_sum_le posBound lenBound (start + len) rest
          have reduced := Nat.mod_le len lenBound
          simp only at total
          omega
        have position : start < posBound := by
          rw [← here]
          exact Nat.mod_lt _ somePos
        have length : len < lenBound := by
          rw [← whole]
          exact Nat.mod_lt _ someLen
        simp only [whole] at behind
        exact ⟨position, length, (ih (start + len)).mp behind⟩
      · rintro ⟨position, length, behind⟩
        rw [Nat.mod_eq_of_lt position, Nat.mod_eq_of_lt length]
        exact ⟨rfl, (ih (start + len)).mpr behind⟩

end Estros
