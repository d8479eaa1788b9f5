import FairyChess.Proofs.Movement.Rides
import Mathlib.Data.Multiset.Bind

/-!
Sequences of more than two parts. However they are grouped they have the same routes, each as often, though not
in the same order.
-/
namespace FairyChess

theorem perm_flatMap_comm {α β γ : Type} (xs : List α) (ys : List β) (f : α → β → List γ) :
    (xs.flatMap fun x => ys.flatMap fun y => f x y).Perm (ys.flatMap fun y => xs.flatMap fun x => f x y) := by
  rw [← Multiset.coe_eq_coe]
  simpa only [Multiset.coe_bind] using
    Multiset.bind_bind (xs : Multiset α) (ys : Multiset β) (f := fun x y => (f x y : Multiset γ))

namespace Pattern

/-- Two patterns with the same routes, each as often. -/
def Alike (p q : Pattern) : Prop :=
  ∀ frame gait x y, (p.routes frame gait x y).Perm (q.routes frame gait x y)

section Alike

variable {p q r : Pattern}

theorem Alike.refl (p : Pattern) : p.Alike p :=
  fun _ _ _ _ => .refl _

theorem Alike.symm (h : p.Alike q) : q.Alike p :=
  fun frame gait x y => (h frame gait x y).symm

theorem Alike.trans (h : p.Alike q) (h' : q.Alike r) : p.Alike r :=
  fun frame gait x y => (h frame gait x y).trans (h' frame gait x y)

theorem Alike.candidates (h : p.Alike q) (frame : Frame) (x y : Square) :
    (p.candidates frame x y).Perm (q.candidates frame x y) := by
  simp only [candidates_eq_routes]
  exact h frame {} x y

theorem Alike.andThen (hp : p.Alike q) {p' q' : Pattern} (hp' : p'.Alike q') :
    (andThen p p').Alike (andThen q q') := by
  intro frame gait x y
  simp only [routes]
  refine .flatMap_left _ fun mid _ => (hp frame gait x mid).flatMap fun head _ => ?_
  exact (hp' frame gait mid y).map _

theorem alike_ride_one (p : Pattern) : (ride (.fixed 1) {} p).Alike p := by
  intro frame gait x y
  rw [routes_ride_one, Gait.join_plain]

theorem alike_andThen_assoc (p q r : Pattern) :
    (andThen (andThen p q) r).Alike (andThen p (andThen q r)) := by
  intro frame gait x y
  let squares := frame.bounds.squares
  let joined (mid : Square) (head : Route) (last : Square) : List Route :=
    (q.routes frame gait mid last).flatMap fun second =>
      (r.routes frame gait last y).map fun third => head ++ second ++ third
  have hleft : (andThen (andThen p q) r).routes frame gait x y = squares.flatMap fun last =>
      squares.flatMap fun mid => (p.routes frame gait x mid).flatMap fun head => joined mid head last := by
    simp only [routes, List.flatMap_assoc, List.flatMap_map, joined, squares]
  have hright : (andThen p (andThen q r)).routes frame gait x y = squares.flatMap fun mid =>
      (p.routes frame gait x mid).flatMap fun head => squares.flatMap fun last => joined mid head last := by
    simp only [routes, List.map_flatMap, List.map_map, joined, squares, Function.comp_def, List.append_assoc]
  -- The last square in between is moved inwards, past the first one and then past the routes to that.
  rw [hleft, hright]
  exact (perm_flatMap_comm _ _ _).trans (.flatMap_left _ fun mid _ => perm_flatMap_comm _ _ _)

/-- The sequence of some parts, the latest of them first, and what comes after them. -/
def chain (done : List Pattern) (last : Pattern) : Pattern :=
  done.foldl (fun rest p => .andThen p rest) last

theorem Alike.chain (h : p.Alike q) (done : List Pattern) : (chain done p).Alike (chain done q) := by
  induction done generalizing p q with
  | nil => exact h
  | cons first done ih => exact ih ((Alike.refl first).andThen h)

/-- Whether what comes after a sequence is taken into it makes no difference. -/
theorem alike_andThen_chain (done : List Pattern) (last rest : Pattern) :
    (andThen (chain done last) rest).Alike (chain done (andThen last rest)) := by
  induction done generalizing last with
  | nil => exact .refl _
  | cons first done ih =>
    exact (ih (andThen first last)).trans ((alike_andThen_assoc first last rest).chain done)

end Alike

end Pattern

section Callbacks

variable {σ : Type} {accept : Route → StateM σ Bool} {f : Route → Bool}

/-- What a callback answers depends on the route only. -/
def AnswersBy (accept : Route → StateM σ Bool) (f : Route → Bool) : Prop :=
  ∀ route s, ((accept route).run s).1 = f route

theorem Tries.eq_find? {routes calls : List Route} {answer : Option Route} {s t : σ}
    (h : Tries accept routes answer calls s t) (hf : AnswersBy accept f) : answer = routes.find? f := by
  induction h with
  | exhausted s => rfl
  | @accepted route rest s t h =>
    have haccepted : f route = true := by rw [← hf route s, h]
    rw [List.find?_cons_of_pos haccepted]
  | @refused route rest calls answer s t u h _ ih =>
    have hrefused : ¬f route = true := by
      rw [← hf route s, h]
      exact Bool.false_ne_true
    rw [List.find?_cons_of_neg hrefused, ih]

theorem Pattern.findRoute_eq_find? (hf : AnswersBy accept f) (p : Pattern) (frame : Frame) (x y : Square)
    (s : σ) : ((p.findRoute frame x y accept).run s).1 = (p.routes frame {} x y).find? f := by
  rw [findRoute_eq_findM?]
  obtain ⟨calls, htries⟩ := exists_tries accept (p.routes frame {} x y) s
  exact htries.eq_find? hf

/-- A callback that looks at the route only finds one in either of two patterns with the same routes. -/
theorem Pattern.Alike.isSome_findRoute {p q : Pattern} (h : p.Alike q) (hf : AnswersBy accept f)
    (frame : Frame) (x y : Square) (s : σ) :
    ((p.findRoute frame x y accept).run s).1.isSome = ((q.findRoute frame x y accept).run s).1.isSome := by
  rw [findRoute_eq_find? hf, findRoute_eq_find? hf, Bool.eq_iff_iff, List.find?_isSome, List.find?_isSome]
  exact exists_congr fun route => and_congr_left' (h frame {} x y).mem_iff

end Callbacks

end FairyChess
