import ServerFramework.Log.Format
import Mathlib.Algebra.Group.Nat.Defs

/-!
# When a file appender reopens its file

`FileLogAppender::log` opens the file anew for an event that comes three seconds or more after the one
that last made it do so.  The times of events are 64-bit numbers, and so is `m_lastTime`; between the
two stands `LogEvent::getTime`, which returns 32 bits.
-/

namespace Server.Log

/-- What decides about the file of a `FileLogAppender`. -/
structure FileLogAppender where
  level : Level
  /-- `m_lastTime` -/
  lastTime : BitVec 64
  deriving DecidableEq, Repr

/-- An event written to the file. -/
structure Write where
  /-- `m_time` of the event -/
  time : Nat
  /-- whether the file was reopened for it -/
  reopened : Bool
  deriving DecidableEq, Repr

namespace FileLogAppender

def new (level : Level) : FileLogAppender := ⟨level, 0⟩

/-- `FileLogAppender::log`, with what it writes. -/
def log (a : FileLogAppender) (level : Level) (event : LogEvent) : Option Write × FileLogAppender :=
  if level.value ≥ a.level.value then
    -- `getTime` has cut the time to 32 bits
    let now : BitVec 64 := event.getTime.setWidth 64
    if now ≥ a.lastTime + 3 then (some ⟨event.time.toNat, true⟩, { a with lastTime := now })
    else (some ⟨event.time.toNat, false⟩, a)
  else (none, a)

/-- What is written for a sequence of events. -/
def run (a : FileLogAppender) : List (Level × LogEvent) → List Write
  | [] => []
  | (level, event) :: rest =>
    let (write, a) := a.log level event
    write.toList ++ a.run rest

/-- The times of the events at or above a level. -/
def logged (level : Level) (events : List (Level × LogEvent)) : List Nat :=
  (events.filter fun p ↦ decide (p.1.value ≥ level.value)).map fun p ↦ p.2.time.toNat

end FileLogAppender

/-- The time of the event that last caused a reopening, or `last` without any. -/
def lastReopening (last : Nat) (writes : List Write) : Nat :=
  writes.foldl (fun last write ↦ if write.reopened then write.time else last) last

/-- The schedule of the reopenings. -/
structure Scheduled (last : Nat) (writes : List Write) : Prop where
  reopened : ∀ i write, writes[i]? = some write →
    (write.reopened = true ↔ lastReopening last (writes.take i) + 3 ≤ write.time)
  recent : ∀ i write, writes[i]? = some write →
    write.time < lastReopening last (writes.take (i + 1)) + 3

/-- The reopenings that the schedule asks for, each with the time of the one before it. -/
def due (last : Nat) : List Nat → List (Nat × Nat)
  | [] => []
  | t :: ts => if last + 3 ≤ t then (last, t) :: due t ts else due last ts

variable {last : Nat} {write : Write} {writes : List Write}

theorem mem_due {ts : List Nat} {p : Nat × Nat} (h : p ∈ due last ts) :
    p.1 + 3 ≤ p.2 ∧ p.2 ∈ ts := by
  induction ts generalizing last with
  | nil => cases h
  | cons t ts ih =>
      rw [due] at h
      by_cases hdue : last + 3 ≤ t
      · rw [if_pos hdue] at h
        rcases List.mem_cons.mp h with rfl | h
        · exact ⟨hdue, List.mem_cons_self⟩
        · exact ⟨(ih h).1, List.mem_cons_of_mem _ (ih h).2⟩
      · rw [if_neg hdue] at h
        exact ⟨(ih h).1, List.mem_cons_of_mem _ (ih h).2⟩

/-- The second half follows from the first. -/
theorem scheduled_of (h : ∀ i write, writes[i]? = some write →
    (write.reopened = true ↔ lastReopening last (writes.take i) + 3 ≤ write.time)) :
    Scheduled last writes where
  reopened := h
  recent := fun i write hi ↦ by
    have hlast : lastReopening last (writes.take (i + 1)) =
        if write.reopened then write.time else lastReopening last (writes.take i) := by
      unfold lastReopening
      rw [List.take_add_one, hi, List.foldl_append]
      rfl
    have hiff := h i write hi
    rw [hlast]
    cases hr : write.reopened with
    | true =>
        rw [if_pos rfl]
        omega
    | false =>
        rw [hr] at hiff
        rw [if_neg Bool.false_ne_true]
        have hnot := mt hiff.mpr Bool.false_ne_true
        omega

theorem scheduled_nil : Scheduled last [] := ⟨nofun, nofun⟩

theorem scheduled_cons : Scheduled last (write :: writes) ↔
    (write.reopened = true ↔ last + 3 ≤ write.time) ∧
      Scheduled (if write.reopened then write.time else last) writes := by
  constructor
  · intro h
    exact ⟨h.reopened 0 write rfl, scheduled_of fun i w hi ↦ h.reopened (i + 1) w hi⟩
  · rintro ⟨hhead, htail⟩
    apply scheduled_of
    intro i w hi
    cases i with
    | zero =>
        cases hi
        exact hhead
    | succ i => exact htail.reopened i w hi

theorem scheduled_reopened {t : Nat} :
    Scheduled last (⟨t, true⟩ :: writes) ↔ last + 3 ≤ t ∧ Scheduled t writes := by
  rw [scheduled_cons]
  apply and_congr_left'
  exact ⟨fun h ↦ h.mp rfl, fun h ↦ ⟨fun _ ↦ h, fun _ ↦ rfl⟩⟩

theorem scheduled_kept {t : Nat} :
    Scheduled last (⟨t, false⟩ :: writes) ↔ ¬ last + 3 ≤ t ∧ Scheduled last writes := by
  rw [scheduled_cons]
  apply and_congr_left'
  exact ⟨fun h hdue ↦ Bool.false_ne_true (h.mpr hdue), fun h ↦ ⟨nofun, fun hdue ↦ absurd hdue h⟩⟩

/-! ## The low halves of the times -/

theorem getTime_toNat (event : LogEvent) :
    (event.getTime.setWidth 64).toNat = event.time.toNat % 2 ^ 32 := by
  unfold LogEvent.getTime
  rw [BitVec.toNat_setWidth, BitVec.toNat_setWidth]
  omega

/-- What the appender compares, with the low half of a time in `m_lastTime`. -/
theorem reopens_iff {lastTime : BitVec 64} {event : LogEvent} (h : lastTime.toNat = last % 2 ^ 32) :
    event.getTime.setWidth 64 ≥ lastTime + 3 ↔
      last % 2 ^ 32 + 3 ≤ event.time.toNat % 2 ^ 32 := by
  have hsum : (lastTime + 3).toNat = last % 2 ^ 32 + 3 := by
    rw [BitVec.toNat_add, h]
    show (last % 2 ^ 32 + 3) % 2 ^ 64 = _
    omega
  rw [ge_iff_le, BitVec.le_def, getTime_toNat, hsum]

/-- Within three seconds the low halves do not ask for a reopening either. -/
theorem low_near {t : Nat} (hle : last ≤ t) (hlt : t < last + 3) :
    ¬ last % 2 ^ 32 + 3 ≤ t % 2 ^ 32 := by
  omega

namespace FileLogAppender

variable {a : FileLogAppender} {level : Level} {event : LogEvent}

theorem run_below {rest : List (Level × LogEvent)} (hlevel : ¬ level.value ≥ a.level.value) :
    a.run ((level, event) :: rest) = a.run rest := by
  rw [run, log, if_neg hlevel]
  rfl

theorem run_reopened {rest : List (Level × LogEvent)} (hlevel : level.value ≥ a.level.value)
    (hlast : a.lastTime.toNat = last % 2 ^ 32)
    (hlow : last % 2 ^ 32 + 3 ≤ event.time.toNat % 2 ^ 32) :
    a.run ((level, event) :: rest) = ⟨event.time.toNat, true⟩ ::
      ({ a with lastTime := event.getTime.setWidth 64 } : FileLogAppender).run rest := by
  rw [run, log, if_pos hlevel]
  dsimp only
  rw [if_pos ((reopens_iff hlast).mpr hlow)]
  rfl

theorem run_kept {rest : List (Level × LogEvent)} (hlevel : level.value ≥ a.level.value)
    (hlast : a.lastTime.toNat = last % 2 ^ 32)
    (hlow : ¬ last % 2 ^ 32 + 3 ≤ event.time.toNat % 2 ^ 32) :
    a.run ((level, event) :: rest) = ⟨event.time.toNat, false⟩ :: a.run rest := by
  rw [run, log, if_pos hlevel]
  dsimp only
  rw [if_neg (mt (reopens_iff hlast).mp hlow)]
  rfl

theorem logged_below {rest : List (Level × LogEvent)} {bound : Level}
    (hlevel : ¬ level.value ≥ bound.value) : logged bound ((level, event) :: rest) = logged bound rest := by
  unfold logged
  rw [List.filter_cons_of_neg (by simpa using hlevel)]

theorem logged_written {rest : List (Level × LogEvent)} {bound : Level}
    (hlevel : level.value ≥ bound.value) :
    logged bound ((level, event) :: rest) = event.time.toNat :: logged bound rest := by
  unfold logged
  rw [List.filter_cons_of_pos (by simpa using hlevel)]
  rfl

/-- The appender keeps to the schedule as long as the low halves agree to each reopening. -/
theorem scheduled_from {events : List (Level × LogEvent)} (hlast : a.lastTime.toNat = last % 2 ^ 32)
    (hle : ∀ t ∈ logged a.level events, last ≤ t)
    (hsorted : (logged a.level events).Pairwise (· ≤ ·)) :
    Scheduled last (a.run events) ↔
      ∀ p ∈ due last (logged a.level events), p.1 % 2 ^ 32 + 3 ≤ p.2 % 2 ^ 32 := by
  induction events generalizing a last with
  | nil => exact ⟨fun _ ↦ nofun, fun _ ↦ scheduled_nil⟩
  | cons head rest ih =>
      rcases head with ⟨level, event⟩
      by_cases hlevel : level.value ≥ a.level.value
      · rw [logged_written hlevel] at hle hsorted ⊢
        have hhead := hle _ List.mem_cons_self
        rw [List.pairwise_cons] at hsorted
        have hrest : ∀ t ∈ logged a.level rest, last ≤ t :=
          fun t ht ↦ hle t (List.mem_cons_of_mem _ ht)
        rw [due]
        by_cases hlow : last % 2 ^ 32 + 3 ≤ event.time.toNat % 2 ^ 32
        -- what the low halves ask for is due, since the times do not decrease
        · have hdue : last + 3 ≤ event.time.toNat := by
            by_contra hcon
            exact low_near hhead (Nat.lt_of_not_le hcon) hlow
          have hnext := ih (a := { a with lastTime := event.getTime.setWidth 64 })
            (getTime_toNat event) hsorted.1 hsorted.2
          rw [run_reopened hlevel hlast hlow, scheduled_reopened, if_pos hdue, List.forall_mem_cons,
            hnext]
          exact and_congr_left' ⟨fun _ ↦ hlow, fun _ ↦ hdue⟩
        · rw [run_kept hlevel hlast hlow, scheduled_kept, ih hlast hrest hsorted.2]
          by_cases hdue : last + 3 ≤ event.time.toNat
          · -- the reopening is due, and the low halves do not show it
            rw [if_pos hdue, List.forall_mem_cons]
            exact ⟨fun h ↦ absurd hdue h.1, fun h ↦ absurd h.1 hlow⟩
          · rw [if_neg hdue]
            exact and_iff_right hdue
      · rw [logged_below hlevel] at hle hsorted ⊢
        rw [run_below hlevel]
        exact ih hlast hle hsorted

/-- Times of 32 bits are compared as they are. -/
theorem scheduled_before_wrap {events : List (Level × LogEvent)}
    (hsorted : (logged level events).Pairwise (· ≤ ·))
    (hsmall : ∀ t ∈ logged level events, t < 2 ^ 32) : Scheduled 0 ((new level).run events) := by
  apply (scheduled_from (a := new level) rfl (fun t _ ↦ Nat.zero_le t) hsorted).mpr
  intro p hp
  rcases mem_due hp with ⟨hlt, hmem⟩
  have hbound := hsmall p.2 hmem
  omega

/-- A new appender, and events whose times do not decrease. -/
theorem scheduled_iff {events : List (Level × LogEvent)}
    (hsorted : (logged level events).Pairwise (· ≤ ·)) :
    Scheduled 0 ((new level).run events) ↔
      ∀ p ∈ due 0 (logged level events), p.1 % 2 ^ 32 + 3 ≤ p.2 % 2 ^ 32 :=
  scheduled_from (a := new level) rfl (fun t _ ↦ Nat.zero_le t) hsorted

/-- An event of which nothing but the time matters. -/
def eventAt (time : BitVec 64) : LogEvent := ⟨"", 0, 0, 0, 0, time, "", "", "root"⟩

theorem scheduled_iff_day : Scheduled 0 ((new .debug).run
    [(.info, eventAt 1700000000), (.info, eventAt 1700000002), (.info, eventAt 1700086400)]) :=
  (scheduled_iff (by decide)).mpr (by decide)

/-- The last second of 32 bits, and a time ten seconds later, which is not written to a new file. -/
theorem not_scheduled :
    (logged .debug [(.info, eventAt 4294967295), (.info, eventAt 4294967306)]).Pairwise (· ≤ ·) ∧
      ¬ Scheduled 0 ((new .debug).run
        [(.info, eventAt 4294967295), (.info, eventAt 4294967306)]) := by
  refine ⟨by decide, fun h ↦ ?_⟩
  have hrun : ((new .debug).run [(.info, eventAt 4294967295), (.info, eventAt 4294967306)]) =
      [⟨4294967295, true⟩, ⟨4294967306, false⟩] := by decide
  rw [hrun] at h
  exact absurd ((h.reopened 1 ⟨4294967306, false⟩ rfl).mpr (by decide)) (by decide)

end FileLogAppender

end Server.Log
