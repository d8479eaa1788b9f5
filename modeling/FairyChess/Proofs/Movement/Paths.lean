import FairyChess.Proofs.Movement.Chain

/-! Where the routes of a pattern go, and which of their steps capture on the way. -/
namespace FairyChess

/-- The squares that a route passes or ends a step on. -/
def Route.squares (route : Route) : List Square :=
  route.flatMap fun step => step.start.between step.finish ++ [step.finish]

section Concatenations

variable {lists : List (List Route)} {route : Route}

theorem exists_of_mem_concatenations (h : route ∈ concatenations lists) {step : Segment}
    (hstep : step ∈ route) : ∃ routes ∈ lists, ∃ part ∈ routes, step ∈ part := by
  induction lists generalizing route with
  | nil =>
    obtain rfl := List.mem_singleton.mp h
    cases hstep
  | cons heads rest ih =>
    obtain ⟨head, hhead, h⟩ := List.mem_flatMap.mp h
    obtain ⟨tail, htail, rfl⟩ := List.mem_map.mp h
    rcases List.mem_append.mp hstep with hstep | hstep
    · exact ⟨heads, List.mem_cons_self, head, hhead, hstep⟩
    · obtain ⟨routes, hroutes, hpart⟩ := ih htail hstep
      exact ⟨routes, List.mem_cons_of_mem heads hroutes, hpart⟩

theorem subset_of_mem_concatenations (h : route ∈ concatenations lists) {routes : List Route}
    (hroutes : routes ∈ lists) : ∃ part ∈ routes, part ⊆ route := by
  induction lists generalizing route with
  | nil => cases hroutes
  | cons heads rest ih =>
    obtain ⟨head, hhead, h⟩ := List.mem_flatMap.mp h
    obtain ⟨tail, htail, rfl⟩ := List.mem_map.mp h
    rcases List.mem_cons.mp hroutes with rfl | hroutes
    · exact ⟨head, hhead, List.subset_append_left head tail⟩
    · obtain ⟨part, hpart, hsub⟩ := ih htail hroutes
      exact ⟨part, hpart, List.Subset.trans hsub (List.subset_append_right head tail)⟩

end Concatenations

namespace Pattern

variable {frame : Frame} {p : Pattern} {gait : Gait} {a b : Square} {route : Route}

/-- A route gets its locusts from the pattern, or from the rides around it. -/
theorem locust_of_mem_routes (h : route ∈ p.routes frame gait a b) {step : Segment}
    (hstep : step ∈ route) (hlocust : step.gait.locust = true) :
    gait.locust = true ∨ p.hasLocust = true := by
  induction p generalizing gait a b route with
  | step s =>
    unfold routes at h
    split at h
    · obtain rfl := List.mem_singleton.mp h
      obtain rfl := List.mem_singleton.mp hstep
      exact (Bool.or_eq_true _ _).mp hlocust
    · cases h
  | ride count own pattern ih =>
    obtain ⟨k, -, h⟩ := List.mem_flatMap.mp h
    obtain ⟨links, hlinks, part, hpart, hstep⟩ := exists_of_mem_concatenations h hstep
    obtain ⟨i, -, rfl⟩ := List.mem_map.mp hlinks
    rcases ih hpart hstep with hgait | hpattern
    · rcases (Bool.or_eq_true _ _).mp hgait with hgait | hown
      · exact .inl hgait
      · exact .inr (by rw [hasLocust, hown, Bool.true_or])
    · exact .inr (by rw [hasLocust, hpattern, Bool.or_true])
  | andThen first second ihFirst ihSecond =>
    obtain ⟨mid, -, h⟩ := List.mem_flatMap.mp h
    obtain ⟨head, hhead, h⟩ := List.mem_flatMap.mp h
    obtain ⟨tail, htail, rfl⟩ := List.mem_map.mp h
    rcases List.mem_append.mp hstep with hstep | hstep
    · refine (ihFirst hhead hstep).imp_right fun hfirst => ?_
      rw [hasLocust, hfirst, Bool.true_or]
    · refine (ihSecond htail hstep).imp_right fun hsecond => ?_
      rw [hasLocust, hsecond, Bool.or_true]

/-- The last link of a ride leads to where the ride does. -/
theorem exists_last_link {count : Count} {own : Gait} {pattern : Pattern}
    (h : route ∈ (ride count own pattern).routes frame gait a b) :
    ∃ start, ∃ part ∈ pattern.routes frame (gait.join own) start b, part ⊆ route := by
  obtain ⟨k, hk, h⟩ := List.mem_flatMap.mp h
  obtain ⟨n, rfl⟩ := Nat.exists_eq_add_one.mpr (Count.mem_splits.mp hk).2.1
  obtain ⟨part, hpart, hsub⟩ := subset_of_mem_concatenations h
    (List.mem_map.mpr ⟨n, List.mem_range.mpr n.lt_succ_self, rfl⟩)
  rw [Square.milestone_last hk] at hpart
  exact ⟨_, part, hpart, hsub⟩

/-- Every route comes to its target. -/
theorem target_mem_squares (h : route ∈ p.routes frame gait a b) : b ∈ route.squares := by
  obtain ⟨step, hstep, rfl⟩ := (connects_of_mem_routes h).exists_last
  exact List.mem_flatMap.mpr ⟨step, hstep, List.mem_append_right _ (List.mem_singleton_self _)⟩

/-- Where the pattern or a ride around it has a locust, so has each of its routes. -/
theorem exists_locust_of_mem_routes (h : route ∈ p.routes frame gait a b)
    (hlocust : gait.locust = true ∨ p.hasLocust = true) :
    ∃ step ∈ route, step.gait.locust = true := by
  induction p generalizing gait a b route with
  | step s =>
    unfold routes at h
    split at h
    · obtain rfl := List.mem_singleton.mp h
      exact ⟨_, List.mem_singleton_self _, (Bool.or_eq_true _ _).mpr hlocust⟩
    · cases h
  | ride count own pattern ih =>
    obtain ⟨start, part, hpart, hsub⟩ := exists_last_link h
    rw [hasLocust, Bool.or_eq_true, ← or_assoc] at hlocust
    have hjoin : (gait.join own).locust = true ∨ pattern.hasLocust = true :=
      hlocust.imp_left (Bool.or_eq_true _ _).mpr
    obtain ⟨step, hstep, hgait⟩ := ih hpart hjoin
    exact ⟨step, hsub hstep, hgait⟩
  | andThen first second ihFirst ihSecond =>
    obtain ⟨mid, -, h⟩ := List.mem_flatMap.mp h
    obtain ⟨head, hhead, h⟩ := List.mem_flatMap.mp h
    obtain ⟨tail, htail, rfl⟩ := List.mem_map.mp h
    rw [hasLocust, Bool.or_eq_true, ← or_assoc] at hlocust
    rcases hlocust with hfirst | hsecond
    · obtain ⟨step, hstep, hgait⟩ := ihFirst hhead hfirst
      exact ⟨step, List.mem_append_left tail hstep, hgait⟩
    · obtain ⟨step, hstep, hgait⟩ := ihSecond htail (.inr hsecond)
      exact ⟨step, List.mem_append_right head hstep, hgait⟩

/-- No route leads off the board. -/
theorem target_mem_bounds (h : route ∈ p.routes frame gait a b) : b ∈ frame.bounds := by
  obtain ⟨step, hstep, rfl⟩ := (connects_of_mem_routes h).exists_last
  exact (connects_of_mem_routes h).onBoard step hstep

end Pattern

end FairyChess
