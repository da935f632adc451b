import Mathlib.Algebra.Order.Ring.Int
import Mathlib.Data.Set.Basic
import Mathlib.Logic.Relation

/-!
# Reading a log at least once

A log grows at its end, by records with increasing offsets. It is read by one reader after the
other. A reader begins at an offset, finishes the records from there on, and commits the offset
after a record now and then; the next reader begins where the last commit was made.

* `Log.since` are the records a reader finds. A prefix of them has every record up to any of its own
  (`Log.mem_of_le`).
* `Step` is what may happen, apart from any program: a commit is made only over finished records and
  never goes back. `Covered` is what it is for (`Covered.star`).
-/

namespace OffsetLog

variable {α : Type*} {offset : α → ℤ}

/-! ## Logs -/

/-- Records with increasing offsets. -/
structure Log (offset : α → ℤ) where
  records : List α
  sorted : records.Pairwise fun r s => offset r < offset s

namespace Log

/-- A log without records. -/
def empty : Log offset := ⟨[], .nil⟩

/-- A record is appended. -/
def append (log : Log offset) (r : α) (h : ∀ s ∈ log.records, offset s < offset r) :
    Log offset where
  records := log.records ++ [r]
  sorted := List.pairwise_append.2 ⟨log.sorted, List.pairwise_singleton _ _, by simpa using h⟩

/-- The records from an offset on. -/
def since (log : Log offset) (p : ℤ) : List α := log.records.filter fun r => p ≤ offset r

@[simp] theorem mem_since {log : Log offset} {p : ℤ} {r : α} :
    r ∈ log.since p ↔ r ∈ log.records ∧ p ≤ offset r := by
  simp [since]

theorem sorted_since (log : Log offset) (p : ℤ) :
    (log.since p).Pairwise fun r s => offset r < offset s :=
  log.sorted.sublist List.filter_sublist

theorem since_prefix_append (log : Log offset) (p : ℤ) (r : α)
    (h : ∀ s ∈ log.records, offset s < offset r) : log.since p <+: (log.append r h).since p := by
  rw [since, since, append, List.filter_append]
  exact List.prefix_append _ _

/-- What comes first in a log has every record up to any of its own. -/
theorem mem_of_le {l l' : List α} (h : (l ++ l').Pairwise fun r s => offset r < offset s) {r s : α}
    (hr : r ∈ l ++ l') (hs : s ∈ l) (hle : offset r ≤ offset s) : r ∈ l := by
  rcases List.mem_append.1 hr with hr | hr
  · exact hr
  · have hlt := (List.pairwise_append.1 h).2.2 s hs r hr
    omega

end Log

/-! ## Readers -/

/-- What was committed: the offset at which the first reader to commit began, and the offset to go
on from. -/
structure Commit where
  base : ℤ
  position : ℤ

/-- A log that is read. -/
structure Reading (offset : α → ℤ) where
  log : Log offset
  committed : Option Commit
  finished : Set α

/-- The commit of a reader that began at `p`, over the record `r`. -/
def Reading.commit (s : Reading offset) (p : ℤ) (r : α) : Commit where
  base := s.committed.elim p Commit.base
  position := offset r + 1

/-- **What may happen.** -/
inductive Step (s : Reading offset) : Reading offset → Prop
  | append {r : α} (h : ∀ r' ∈ s.log.records, offset r' < offset r) :
      Step s { s with log := s.log.append r h }
  | finish {finished : Set α} (h : s.finished ⊆ finished) : Step s { s with finished }
  /-- The reader began where the commits were then, or before. -/
  | commit {p : ℤ} {r : α} (hbegan : ∀ c ∈ s.committed, p ≤ c.position)
      (hforward : ∀ c ∈ s.committed, c.position ≤ offset r + 1) (hr : r ∈ s.log.since p)
      (hfinished : ∀ r' ∈ s.log.since p, offset r' ≤ offset r → r' ∈ s.finished) :
      Step s { s with committed := some (s.commit p r) }

/-- **At least once.** Every record from the first reader on is finished before a commit passes
it. -/
structure Covered (s : Reading offset) : Prop where
  finished : ∀ c ∈ s.committed, ∀ r ∈ s.log.records, c.base ≤ offset r → offset r < c.position →
    r ∈ s.finished
  /-- A commit is made behind a record of the log. -/
  reached : ∀ c ∈ s.committed, ∃ r ∈ s.log.records, c.position = offset r + 1

/-- The commits of a log go forward. -/
def Forward (s t : Reading offset) : Prop :=
  ∀ c ∈ s.committed, ∃ d ∈ t.committed, d.base = c.base ∧ c.position ≤ d.position

theorem Forward.refl (s : Reading offset) : Forward s s := fun c hc => ⟨c, hc, rfl, le_rfl⟩

theorem Forward.trans {s t u : Reading offset} (h : Forward s t) (h' : Forward t u) :
    Forward s u := by
  intro c hc
  obtain ⟨d, hd, hbase, hle⟩ := h c hc
  obtain ⟨e, he, hbase', hle'⟩ := h' d hd
  exact ⟨e, he, hbase'.trans hbase, hle.trans hle'⟩

theorem Covered.append {s : Reading offset} (hs : Covered s) {r : α}
    (h : ∀ r' ∈ s.log.records, offset r' < offset r) :
    Covered { s with log := s.log.append r h } := by
  refine ⟨fun c hc x hx hbase hlt => ?_, fun c hc => ?_⟩
  · rcases List.mem_append.1 hx with hx | hx
    · exact hs.finished c hc x hx hbase hlt
    · -- a new record comes behind every commit
      obtain ⟨y, hy, hpos⟩ := hs.reached c hc
      obtain rfl := List.mem_singleton.1 hx
      have hafter := h y hy
      omega
  · obtain ⟨y, hy, hpos⟩ := hs.reached c hc
    exact ⟨y, List.mem_append_left _ hy, hpos⟩

theorem Covered.commit {s : Reading offset} (hs : Covered s) {p : ℤ} {r : α}
    (hbegan : ∀ c ∈ s.committed, p ≤ c.position) (hr : r ∈ s.log.since p)
    (hfinished : ∀ r' ∈ s.log.since p, offset r' ≤ offset r → r' ∈ s.finished) :
    Covered { s with committed := some (s.commit p r) } := by
  refine ⟨?_, ?_⟩
  · rintro c ⟨⟩ x hx hbase hlt
    have hle : offset x ≤ offset r := Int.lt_add_one_iff.1 hlt
    rcases lt_or_ge (offset x) p with hbefore | hsince
    · cases hc : s.committed with
      | none =>
        simp only [Reading.commit, hc, Option.elim] at hbase
        omega
      | some c =>
        simp only [Reading.commit, hc, Option.elim] at hbase
        exact hs.finished c hc x hx hbase (hbefore.trans_le (hbegan c hc))
    · exact hfinished x (Log.mem_since.2 ⟨hx, hsince⟩) hle
  · rintro c ⟨⟩
    exact ⟨r, (Log.mem_since.1 hr).1, rfl⟩

/-- One step keeps the log covered, and no commit goes back. -/
theorem Covered.step {s t : Reading offset} (hs : Covered s) (h : Step s t) :
    Covered t ∧ Forward s t := by
  cases h with
  | append h => exact ⟨hs.append h, Forward.refl _⟩
  | finish h => exact ⟨⟨fun c hc r hr hb hl => h (hs.finished c hc r hr hb hl), hs.reached⟩,
      Forward.refl _⟩
  | commit hbegan hforward hr hfinished =>
    refine ⟨hs.commit hbegan hr hfinished, fun c hc => ⟨_, rfl, ?_, hforward c hc⟩⟩
    rw [Reading.commit, Option.mem_def.1 hc, Option.elim]

/-- Any number of steps. -/
theorem Covered.star {s t : Reading offset} (hs : Covered s) (h : Relation.ReflTransGen Step s t) :
    Covered t ∧ Forward s t := by
  induction h with
  | refl => exact ⟨hs, Forward.refl s⟩
  | tail _ hstep ih =>
    obtain ⟨ht, hforward⟩ := ih
    obtain ⟨hu, hnext⟩ := ht.step hstep
    exact ⟨hu, hforward.trans hnext⟩

end OffsetLog
