import Mathlib.Data.List.Nodup

/-!
# Queues that are read up to a stop message

A reader takes what was sent in order and ends at the first stop message. What was sent
behind that message is never taken.
-/

namespace Ctguard

universe u

variable {α : Type u} {stop : α → Prop} {x y : α} {sent taken queue : List α}

/-- Sent behind a stop message. -/
def Behind (stop : α → Prop) (x : α) (sent : List α) : Prop :=
  ∃ before s after, sent = before ++ s :: after ∧ stop s ∧ x ∈ after

theorem Behind.mem (h : Behind stop x sent) : x ∈ sent := by
  obtain ⟨before, s, after, rfl, -, hx⟩ := h
  simp [hx]

theorem Behind.concat (h : Behind stop x sent) (y : α) : Behind stop x (sent ++ [y]) := by
  obtain ⟨before, s, after, rfl, hs, hx⟩ := h
  exact ⟨before, s, after ++ [y], by simp, hs, by simp [hx]⟩

theorem behind_concat_self (h : ∃ s ∈ sent, stop s) (y : α) : Behind stop y (sent ++ [y]) := by
  obtain ⟨s, hmem, hs⟩ := h
  obtain ⟨before, after, rfl⟩ := List.append_of_mem hmem
  exact ⟨before, s, after ++ [y], by simp, hs, by simp⟩

theorem Behind.of_concat (h : Behind stop x (sent ++ [y])) (hne : x ≠ y) :
    Behind stop x sent := by
  obtain ⟨before, s, after, heq, hs, hx⟩ := h
  rcases List.eq_nil_or_concat after with rfl | ⟨after', z, rfl⟩
  · simp at hx
  · have hcut : sent ++ [y] = (before ++ s :: after') ++ [z] := by simpa using heq
    obtain ⟨rfl, hz⟩ := List.append_inj' hcut rfl
    obtain rfl : y = z := by simpa using hz
    have hx' : x ∈ after' := by simpa [hne] using hx
    exact ⟨before, s, after', rfl, hs, hx'⟩

theorem not_behind_of_none (h : ∀ s ∈ sent, ¬ stop s) : ¬ Behind stop x sent := by
  rintro ⟨before, s, after, rfl, hs, -⟩
  exact h s (by simp) hs

theorem behind_concat_of_ne (hne : x ≠ y) :
    Behind stop x (sent ++ [y]) ↔ Behind stop x sent :=
  ⟨fun h => h.of_concat hne, fun h => h.concat y⟩

/-- What is new and no stop message stands behind one if there is one. -/
theorem behind_concat_iff (hy : ¬ stop y) :
    Behind stop y (sent ++ [y]) ↔ ∃ s ∈ sent, stop s := by
  constructor
  · rintro ⟨before, s, after, heq, hs, hafter⟩
    have hmem : s ∈ sent ++ [y] := heq ▸ by simp
    rcases List.mem_append.mp hmem with hmem | hmem
    · exact ⟨s, hmem, hs⟩
    · exact absurd (List.mem_singleton.mp hmem ▸ hs) hy
  · exact fun h => behind_concat_self h y

theorem behind_cons_of_not (hy : ¬ stop y) : Behind stop x (y :: sent) ↔ Behind stop x sent := by
  constructor
  · rintro ⟨before, s, after, heq, hs, hafter⟩
    cases before with
    | nil =>
      obtain ⟨rfl, -⟩ := List.cons.inj heq
      exact absurd hs hy
    | cons b before =>
      obtain ⟨-, rfl⟩ := List.cons.inj heq
      exact ⟨before, s, after, rfl, hs, hafter⟩
  · rintro ⟨before, s, after, rfl, hs, hafter⟩
    exact ⟨y :: before, s, after, rfl, hs, hafter⟩

theorem behind_cons_self (hy : stop y) (hx : x ∈ sent) : Behind stop x (y :: sent) :=
  ⟨[], y, sent, rfl, hy, hx⟩

/-- What a reader has taken of what was sent, and what is left in the queue, before and
after it has stopped. -/
def ReadUpTo (stop : α → Prop) (sent taken queue : List α) : Bool → Prop
  | false => sent = taken ++ queue ∧ ∀ x ∈ taken, ¬ stop x
  | true => ∃ s, sent = taken ++ s :: queue ∧ stop s ∧ ∀ x ∈ taken, ¬ stop x

namespace ReadUpTo

theorem put {stopped : Bool} (h : ReadUpTo stop sent taken queue stopped) (y : α) :
    ReadUpTo stop (sent ++ [y]) taken (queue ++ [y]) stopped := by
  cases stopped with
  | false =>
    obtain ⟨rfl, htaken⟩ := h
    exact ⟨by simp, htaken⟩
  | true =>
    obtain ⟨s, rfl, hs, htaken⟩ := h
    exact ⟨s, by simp, hs, htaken⟩

theorem take (h : ReadUpTo stop sent taken (x :: queue) false) (hx : ¬ stop x) :
    ReadUpTo stop sent (taken ++ [x]) queue false := by
  obtain ⟨rfl, htaken⟩ := h
  refine ⟨by simp, ?_⟩
  intro y hy
  rcases List.mem_append.mp hy with hy | hy
  · exact htaken y hy
  · rwa [List.mem_singleton.mp hy]

theorem take_stop (h : ReadUpTo stop sent taken (x :: queue) false) (hx : stop x) :
    ReadUpTo stop sent taken queue true :=
  ⟨x, h.1, hx, h.2⟩

theorem subset {stopped : Bool} (h : ReadUpTo stop sent taken queue stopped) : taken ⊆ sent := by
  cases stopped with
  | false => exact h.1 ▸ List.subset_append_left _ _
  | true =>
    obtain ⟨s, rfl, -⟩ := h
    exact List.subset_append_left _ _

/-- A reader that has stopped has taken what was not sent behind a stop message. -/
theorem mem_taken_iff (h : ReadUpTo stop sent taken queue true) (hnodup : sent.Nodup)
    (hmem : x ∈ sent) (hx : ¬ stop x) : x ∈ taken ↔ ¬ Behind stop x sent := by
  obtain ⟨s, rfl, hs, htaken⟩ := h
  obtain ⟨-, hrest, hdisjoint⟩ := List.nodup_append.mp hnodup
  constructor
  · rintro hin ⟨before, s', after, heq, hs', hafter⟩
    -- the stop message stands behind everything that was taken
    rcases List.append_eq_append_iff.mp heq with ⟨as, rfl, hcons⟩ | ⟨bs, rfl, hcons⟩
    · have hqueue : x ∈ s :: queue := hcons ▸ by simp [hafter]
      exact hdisjoint x hin x hqueue rfl
    · cases bs with
      | nil =>
        obtain ⟨rfl, rfl⟩ := List.cons.inj hcons
        exact hdisjoint x (by simpa using hin) x (by simp [hafter]) rfl
      | cons b bs =>
        obtain ⟨rfl, -⟩ := List.cons.inj hcons
        exact htaken s' (by simp) hs'
  · intro hbehind
    rcases List.mem_append.mp hmem with hin | hin
    · exact hin
    · rcases List.mem_cons.mp hin with rfl | hqueue
      · exact absurd hs hx
      · exact absurd ⟨taken, s, queue, rfl, hs, hqueue⟩ hbehind

end ReadUpTo

section Reached

variable {hand : List α} {reading : Bool}

/-- Taken, or in front of every stop message in a queue that is still read. -/
def Reached (stop : α → Prop) (taken queue : List α) (reading : Bool) (x : α) : Prop :=
  x ∈ taken ∨ (reading = true ∧ x ∈ queue ∧ ¬ Behind stop x queue)

/-- Nothing that was sent is out of reach but stop messages. -/
def AllReached (stop : α → Prop) (sent taken queue : List α) (reading : Bool) : Prop :=
  ∀ x ∈ sent, ¬ stop x → Reached stop taken queue reading x

theorem reached_put (hne : x ≠ y) :
    Reached stop taken (queue ++ [y]) reading x ↔ Reached stop taken queue reading x := by
  rw [Reached, Reached, behind_concat_of_ne hne, List.mem_append, List.mem_singleton,
    or_iff_left hne]

theorem reached_new (htaken : y ∉ taken) (hy : ¬ stop y) :
    Reached stop taken (queue ++ [y]) reading y ↔
      reading = true ∧ ∀ s ∈ queue, ¬ stop s := by
  have hmem : y ∈ queue ++ [y] := List.mem_append_right _ (List.mem_singleton_self y)
  rw [Reached, behind_concat_iff hy, or_iff_right htaken, and_iff_right hmem]
  simp only [not_exists, not_and]

/-- What is put is in reach if the queue is read and no stop message waits in it. -/
theorem allReached_put (hsent : y ∉ sent) (htaken : y ∉ taken) :
    AllReached stop (sent ++ [y]) taken (queue ++ [y]) reading ↔
      AllReached stop sent taken queue reading ∧
        (¬ stop y → reading = true ∧ ∀ s ∈ queue, ¬ stop s) := by
  have hold : ∀ x ∈ sent, Reached stop taken (queue ++ [y]) reading x ↔
      Reached stop taken queue reading x := by
    intro x hx
    exact reached_put fun heq => hsent (heq ▸ hx)
  constructor
  · intro h
    refine ⟨fun x hx hstop => (hold x hx).mp (h x (by simp [hx]) hstop), fun hy => ?_⟩
    exact (reached_new htaken hy).mp (h y (by simp) hy)
  · rintro ⟨h, hnew⟩ x hx hstop
    rcases List.mem_append.mp hx with hx | hx
    · exact (hold x hx).mpr (h x hx hstop)
    · obtain rfl := List.mem_singleton.mp hx
      exact (reached_new htaken hstop).mpr (hnew hstop)

theorem allReached_take (hy : ¬ stop y) (hnodup : (y :: queue).Nodup) :
    AllReached stop sent (taken ++ [y]) queue true ↔
      AllReached stop sent taken (y :: queue) true := by
  have hfirst : ¬ Behind stop y queue := fun h => (List.nodup_cons.mp hnodup).1 h.mem
  apply forall₃_congr
  intro x hx hstop
  rw [Reached, Reached, behind_cons_of_not hy, List.mem_append, List.mem_singleton,
    List.mem_cons]
  constructor
  · rintro ((htaken | rfl) | ⟨-, hqueue, hbehind⟩)
    · exact .inl htaken
    · exact .inr ⟨rfl, .inl rfl, hfirst⟩
    · exact .inr ⟨rfl, .inr hqueue, hbehind⟩
  · rintro (htaken | ⟨-, rfl | hqueue, hbehind⟩)
    · exact .inl (.inl htaken)
    · exact .inl (.inr rfl)
    · exact .inr ⟨rfl, hqueue, hbehind⟩

/-- Nothing in reach is left behind a stop message that is taken. -/
theorem allReached_stop (hy : stop y) :
    AllReached stop sent taken queue false ↔ AllReached stop sent taken (y :: queue) true := by
  apply forall₃_congr
  intro x hx hstop
  have hne : x ≠ y := fun heq => hstop (heq ▸ hy)
  rw [Reached, Reached, List.mem_cons, or_iff_right hne]
  apply or_congr_right
  constructor
  · rintro ⟨hreading, -⟩
    cases hreading
  · rintro ⟨-, hqueue, hbehind⟩
    exact absurd (behind_cons_self hy hqueue) hbehind

/-- A reader that gives up loses what it holds and what waits. -/
theorem allReached_giveUp (hsubset : hand ++ queue ⊆ sent) (hhand : ∀ x ∈ hand, ¬ stop x)
    (hnodup : (taken ++ (hand ++ queue)).Nodup) :
    AllReached stop sent taken queue false ↔
      AllReached stop sent (taken ++ hand) queue true ∧ hand = [] ∧ ∀ x ∈ queue, stop x := by
  have hdisjoint := (List.nodup_append.mp hnodup).2.2
  constructor
  · intro h
    have htaken : ∀ x ∈ sent, ¬ stop x → x ∈ taken := by
      intro x hx hstop
      rcases h x hx hstop with htaken | ⟨hreading, -⟩
      · exact htaken
      · cases hreading
    refine ⟨fun x hx hstop => .inl (List.mem_append_left _ (htaken x hx hstop)), ?_, ?_⟩
    · apply List.eq_nil_iff_forall_not_mem.mpr
      intro x hx
      have hmem : x ∈ hand ++ queue := List.mem_append_left _ hx
      exact hdisjoint x (htaken x (hsubset hmem) (hhand x hx)) x hmem rfl
    · intro x hx
      by_contra hstop
      have hmem : x ∈ hand ++ queue := List.mem_append_right _ hx
      exact hdisjoint x (htaken x (hsubset hmem) hstop) x hmem rfl
  · rintro ⟨h, rfl, hqueue⟩ x hx hstop
    rcases h x hx hstop with htaken | ⟨-, hmem, -⟩
    · exact .inl (by simpa using htaken)
    · exact absurd (hqueue x hmem) hstop

end Reached

end Ctguard
