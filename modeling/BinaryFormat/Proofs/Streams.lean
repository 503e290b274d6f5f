import BinaryFormat.Run
import Mathlib

/-!
# What becomes of a stream

A run never exchanges the stream that it works on: a byte string stays one of
the same kind, a view stays a view of the same recoding.
-/

namespace BinaryFormat

private theorem Medium.backing_of_seek {m m' : Medium} {dest : SeekTo} (h : m.seek dest = .ok m') :
    m'.backing = m.backing := by
  unfold Medium.seek at h
  dsimp only at h
  split at h <;> split at h <;> first
    | contradiction
    | cases h; rfl

private theorem View.recoding_of_seek {v v' : View} {dest : SeekTo} (h : v.seek dest = .ok v') :
    v'.recoding = v.recoding := by
  cases dest <;> dsimp only [View.seek] at h <;> split at h <;> first
    | contradiction
    | cases h; rfl

namespace Stream

/-- Streams of the same kind: byte strings of one backing, or views of one recoding over
such. -/
def Alike : Stream → Stream → Prop
  | medium m, medium m' => m'.backing = m.backing
  | view v outer, view v' outer' => v'.recoding = v.recoding ∧ Alike outer outer'
  | _, _ => False

@[simp] theorem alike_medium {m m' : Medium} :
    Alike (medium m) (medium m') ↔ m'.backing = m.backing := Iff.rfl

@[simp] theorem alike_view {v v' : View} {outer outer' : Stream} :
    Alike (view v outer) (view v' outer') ↔ v'.recoding = v.recoding ∧ outer.Alike outer' :=
  Iff.rfl

theorem Alike.refl (s : Stream) : s.Alike s := by
  induction s with
  | medium m => rfl
  | view v outer ih => exact ⟨rfl, ih⟩

theorem Alike.trans {a b c : Stream} (h : a.Alike b) (h' : b.Alike c) : a.Alike c := by
  induction a generalizing b c with
  | medium m =>
      cases b <;> cases c <;> simp_all [Alike]
  | view v outer ih =>
      cases b with
      | medium m => exact h.elim
      | view v' outer' =>
          cases c with
          | medium m => exact h'.elim
          | view v'' outer'' => exact ⟨h'.1.trans h.1, ih h.2 h'.2⟩

theorem pos_setPos (s : Stream) (pos : Nat) : (s.setPos pos).pos = pos := by
  cases s <;> rfl

theorem alike_setPos (s : Stream) (pos : Nat) : s.Alike (s.setPos pos) := by
  cases s with
  | medium m => rfl
  | view v outer => exact ⟨rfl, Alike.refl outer⟩

private theorem alike_giveBack (s : Stream) (count : Nat) : s.Alike (s.giveBack count) := by
  cases s with
  | medium m => rfl
  | view v outer => exact ⟨rfl, Alike.refl outer⟩

theorem alike_read (s : Stream) (limit : Option Nat) : s.Alike (s.read limit).2 := by
  induction s generalizing limit with
  | medium m => rfl
  | view v outer ih =>
      by_cases h : limit = some 0
      · simp [read, h, Alike.refl]
      · cases hr : v.request (limit.map (v.pos + ·)) with
        | none => simp [read, h, hr, View.take, Alike.refl]
        | some asked =>
            have fetched := ih asked
            have back := alike_giveBack (outer.read asked).2
              (v.receive asked (outer.read asked).1).2
            simp only [read, h, hr, if_false, alike_view]
            exact ⟨rfl, fetched.trans back⟩

private theorem alike_fillAll (s : Stream) : s.Alike s.fillAll := by
  cases s with
  | medium m => rfl
  | view v outer =>
      cases h : v.request none with
      | none => simp [fillAll, h, Alike.refl]
      | some asked =>
          have fetched := alike_read outer asked
          have back := alike_giveBack (outer.read asked).2
            (v.receive asked (outer.read asked).1).2
          simp only [fillAll, h, alike_view]
          exact ⟨rfl, fetched.trans back⟩

theorem alike_write (s : Stream) (bytes : List UInt8) : s.Alike (s.write bytes).2 := by
  cases s with
  | medium m =>
      obtain ⟨backing, data, pos⟩ := m
      cases backing <;> simp [write, Medium.write]
  | view v outer =>
      by_cases h : bytes = [] <;> simp [write, View.write, h, Alike.refl]

/-- A seek once the view holds the units that it needs. -/
def moved (s : Stream) (dest : SeekTo) : Except StreamFault Nat × Stream :=
  match s with
  | medium m =>
    match m.seek dest with
    | .ok m => (.ok m.pos, medium m)
    | .error fault => (.error fault, medium m)
  | view v outer =>
    match v.seek dest with
    | .ok v => (.ok v.pos, view v outer)
    | .error fault => (.error fault, view v outer)

private theorem alike_moved (s : Stream) (dest : SeekTo) : s.Alike (s.moved dest).2 := by
  cases s with
  | medium m =>
      cases h : m.seek dest with
      | error fault => simp [moved, h]
      | ok m' => simp [moved, h, Medium.backing_of_seek h]
  | view v outer =>
      cases h : v.seek dest with
      | error fault => simp [moved, h, Alike.refl]
      | ok v' => simp [moved, h, View.recoding_of_seek h, Alike.refl]

theorem alike_seek (s : Stream) (dest : SeekTo) : s.Alike (s.seek dest).2 := by
  cases dest with
  | start n => exact alike_moved s _
  | current d => exact alike_moved s _
  | fromEnd d => exact (alike_fillAll s).trans (alike_moved s.fillAll _)

theorem alike_size (s : Stream) : s.Alike s.size.2 := by
  have filled := alike_fillAll s
  unfold size
  cases h : s.fillAll with
  | medium m =>
      rw [h] at filled
      exact filled
  | view v outer =>
      rw [h] at filled
      exact filled

/-- Leaving a view leads back to its outer stream. -/
theorem alike_finish {s outer : Stream} {v : View} (h : (view v outer).Alike s) :
    outer.Alike s.finish.2 := by
  cases s with
  | medium m => exact h.elim
  | view v' outer' =>
      obtain ⟨-, inner⟩ := h
      refine inner.trans ?_
      unfold finish
      dsimp only
      split
      · split
        · exact Alike.refl _
        · exact alike_write _ _
      · split
        · exact Alike.refl _
        · exact alike_giveBack _ _

theorem alike_abandon {s outer : Stream} {v : View} (h : (view v outer).Alike s) :
    outer.Alike s.abandon := by
  cases s with
  | medium m => exact h.elim
  | view v' outer' => exact h.2

end Stream

end BinaryFormat
