import FairyChess.Proofs.Move.OpenRoute
import FairyChess.Proofs.Move.Recast
import FairyChess.Proofs.Movement.Grouping
import Mathlib

/-!
Grouped sequences. However the parts of a sequence are grouped, a piece reaches the same squares by it, as long
as the group does not take the mark of a leaper from the clause.
-/
namespace FairyChess
open Movement

/-- The piece can go to the target if it has this grammar. -/
def Position.Reaches (p : Position) (id : PieceId) (g : Grammar) (target : Square) : Prop :=
  ((p.recast id g).move? id target).isSome

section Marks

variable {c d : Clause} (h : c.SameMarks d)
include h

theorem Clause.SameMarks.dummy_eq : d.dummy = c.dummy := by
  unfold SameMarks at h
  rw [h]

theorem Clause.SameMarks.permits_eq (mover : Piece) (occupied : Bool) :
    d.permits mover occupied = c.permits mover occupied := by
  unfold SameMarks at h
  rw [h]
  rfl

end Marks

/-- The second clause asks no more of a piece than the first, and it has every route that the first has. -/
structure Clause.NoFurther (c d : Clause) : Prop where
  marks : c.SameMarks d
  leaper : c.leaper = true → d.leaper = true
  candidates (frame : Frame) (x y : Square) : c.pattern.candidates frame x y ⊆ d.pattern.candidates frame x y

namespace Position

variable {p : Position} {mover : Piece} {id : PieceId} {target : Square} {c d : Clause}

section Leapers

variable {leaper leaper' : Bool} (hle : leaper = true → leaper' = true)
include hle

theorem Passable.of_leaper {step : Segment} (h : p.Passable mover leaper step) :
    p.Passable mover leaper' step := by
  unfold Passable at h ⊢
  split at h
  · next hlocust => rwa [if_pos hlocust]
  · next hlocust =>
    rw [if_neg hlocust]
    exact h.imp_left hle

theorem Open.of_leaper {route : Route} (h : p.Open mover leaper route) : p.Open mover leaper' route where
  passable step hstep := (h.passable step hstep).of_leaper hle
  landing := h.landing.imp_left hle

end Leapers

theorem isSome_clausePasses?_iff : (p.clausePasses? mover target c).isSome ↔
    ∃ route ∈ c.pattern.candidates mover.frame mover.square target, p.Open mover c.leaper route := by
  rw [← exists_isFirst_iff, Option.isSome_iff_exists]
  simp only [clausePasses?_eq_some_iff]
  constructor
  · rintro ⟨ids, route, hfirst, -⟩
    exact ⟨route, hfirst⟩
  · rintro ⟨route, hfirst⟩
    exact ⟨_, route, hfirst, rfl⟩

theorem isSome_grammarMove?_recast_iff {g : Grammar} {occupant : Option Slot} :
    (p.grammarMove? ⟨id, mover.recast g⟩ target occupant).isSome ↔
      ∃ c ∈ g.clauses, c.permits mover occupant.isSome ∧
        ∃ route ∈ c.pattern.candidates mover.frame mover.square target, p.Open mover c.leaper route := by
  rw [grammarMove?_recast, List.findSome?_isSome_iff]
  apply exists_congr
  intro c
  rw [← isSome_clausePasses?_iff]
  cases c.permits mover occupant.isSome <;> simp

theorem reaches_of_noFurther (h : c.NoFurther d) (before after : List Clause) (source source' : String)
    (hreaches : p.Reaches id ⟨source, before ++ c :: after⟩ target) :
    p.Reaches id ⟨source', before ++ d :: after⟩ target := by
  refine isSome_move?_recast_mono ?_ (fun q _ occupant hsome => ?_) hreaches
  · simp only [Grammar.isDummy, List.any_append, List.any_cons, h.marks.dummy_eq]
  rw [isSome_grammarMove?_recast_iff] at hsome ⊢
  obtain ⟨e, he, hpermits, route, hroute, hopen⟩ := hsome
  simp only [List.mem_append, List.mem_cons] at he ⊢
  by_cases heq : e = c
  · subst heq
    rw [← h.marks.permits_eq] at hpermits
    exact ⟨d, .inr (.inl rfl), hpermits, route, h.candidates _ _ _ hroute, hopen.of_leaper h.leaper⟩
  · have he' : e ∈ before ∨ e = d ∨ e ∈ after := he.imp_right fun he => .inr (he.resolve_left heq)
    exact ⟨e, he', hpermits, route, hroute, hopen⟩

end Position

theorem Pattern.Alike.noFurther {p q : Pattern} (h : p.Alike q) (c : Clause) :
    ({ c with pattern := p } : Clause).NoFurther { c with pattern := q } where
  marks := rfl
  leaper := id
  candidates frame x y _ hroute := (h.candidates frame x y).subset hroute

/--
Sequencing is associative. A sequence of three parts has the same routes in either grouping, each as often, so
that a callback that looks at the route only finds one in both or in neither, and clauses with the same marks
reach the same squares by them. In a text the parts of a sequence before a `.` can be put in a group, which is
read just if they are, and to the same routes. What reaches a square with the group reaches it without, and the
other way round unless the clause loses the mark of a leaper: one of the grouped parts bears it outside all other
groups, and none of the later parts does.
-/
theorem andThen_regroup (p q r : Pattern) {first : List Char} (hfirst : repaired first = first)
    (rest : List Char) :
    let left : Pattern := .andThen (.andThen p q) r
    let right : Pattern := .andThen p (.andThen q r)
    ((∀ frame x y, (left.candidates frame x y).Perm (right.candidates frame x y)) ∧
      (∀ (σ : Type) (accept : Route → StateM σ Bool) (f : Route → Bool), AnswersBy accept f →
        ∀ frame x y s, ((left.findRoute frame x y accept).run s).1.isSome =
          ((right.findRoute frame x y accept).run s).1.isSome) ∧
      ∀ (position : Position) (id : PieceId) (c : Clause) (before after : List Clause)
          (source source' : String) (target : Square),
        position.Reaches id ⟨source, before ++ { c with pattern := left } :: after⟩ target ↔
          position.Reaches id ⟨source', before ++ { c with pattern := right } :: after⟩ target) ∧
    ((∃ c, readClause (first ++ '.' :: rest) = .ok c) ↔ ∃ d, readClause (grouped first rest) = .ok d) ∧
    ∀ c d, readClause (first ++ '.' :: rest) = .ok c → readClause (grouped first rest) = .ok d →
      (∀ frame x y, (c.pattern.candidates frame x y).Perm (d.pattern.candidates frame x y)) ∧
      ∀ (position : Position) (id : PieceId) (before after : List Clause) (source source' : String)
          (target : Square),
        (position.Reaches id ⟨source', before ++ d :: after⟩ target →
          position.Reaches id ⟨source, before ++ c :: after⟩ target) ∧
        (('~' ∈ outside 0 first → '~' ∈ outside 0 rest) →
          (position.Reaches id ⟨source, before ++ c :: after⟩ target ↔
            position.Reaches id ⟨source', before ++ d :: after⟩ target)) := by
  intro left right
  have hassoc : left.Alike right := Pattern.alike_andThen_assoc p q r
  refine ⟨⟨hassoc.candidates, fun _ _ _ hf => hassoc.isSome_findRoute hf, ?_⟩,
    exists_readClause_grouped hfirst rest, ?_⟩
  · intro position id c before after source source' target
    exact ⟨Position.reaches_of_noFurther (hassoc.noFurther c) before after source source',
      Position.reaches_of_noFurther (hassoc.symm.noFurther c) before after source' source⟩
  intro c d hc hd
  obtain ⟨halike, hmarks, hleaper, hleaper'⟩ := of_readClause_grouped hfirst hc hd
  refine ⟨halike.candidates, fun position id before after source source' target => ?_⟩
  have hgrouped : d.NoFurther c := by
    refine ⟨hmarks.symm, fun hd => ?_, fun frame x y _ => (halike.candidates frame x y).mem_iff.mpr⟩
    rw [hleaper, hleaper'.symm.trans hd, Bool.or_true]
  refine ⟨Position.reaches_of_noFurther hgrouped before after source' source, fun hkept => ⟨?_,
    Position.reaches_of_noFurther hgrouped before after source' source⟩⟩
  have hflat : c.NoFurther d := by
    refine ⟨hmarks, fun hc => ?_, fun frame x y _ => (halike.candidates frame x y).mem_iff.mp⟩
    rw [hleaper, Bool.or_eq_true, List.contains_iff_mem, List.contains_iff_mem] at hc
    rw [hleaper', List.contains_iff_mem]
    exact hc.elim hkept fun hrest => hrest
  exact Position.reaches_of_noFurther hflat before after source source'

/-- A man goes ahead, to the side and diagonally ahead, past a pawn of its own, however this is grouped. -/
theorem andThen_regroup_corner :
    let ahead : Step := { shape := .orthogonal, heading := .forward false, distance := .single (.exact 1) }
    let side : Step := { shape := .orthogonal, heading := .sideways, distance := .single (.exact 1) }
    let slant : Step := { shape := .diagonal, heading := .forward false, distance := .single (.exact 1) }
    let turn : Pattern := .andThen (.step ahead) (.step side)
    let c : Clause := {
      source := "1>+.1=+.1>x"
      pattern := .andThen (.step ahead) (.andThen (.step side) (.step slant)) }
    let d : Clause := { source := "(1>+.1=+).1>x", pattern := .andThen (.ride (.fixed 1) {} turn) (.step slant) }
    let first := "1>+.1=+".toList
    let rest := "1>x".toList
    let accept : Route → StateM ℕ Bool := fun route => do
      modify (· + 1)
      return route.length == 3
    let board : Bounds := { left := 0, right := 3, bottom := 0, top := 3 }
    let p := ((Piece.standard? .bishop ⟨0, 0⟩ .white board).toList ++
      (Piece.standard? .pawn ⟨1, 0⟩ .white board).toList).foldl Position.add { bounds := board }
    repaired first = first ∧ readClause (first ++ '.' :: rest) = .ok c ∧
      readClause (grouped first rest) = .ok d ∧ ('~' ∈ outside 0 first → '~' ∈ outside 0 rest) ∧
      AnswersBy accept (·.length == 3) ∧
      p.Reaches ⟨.white, 0⟩ ⟨"", [c]⟩ ⟨2, 2⟩ ∧ p.Reaches ⟨.white, 0⟩ ⟨"", [d]⟩ ⟨2, 2⟩ ∧
      ∀ frame x y s, (((Pattern.andThen turn (.step slant)).findRoute frame x y accept).run s).1.isSome =
        ((c.pattern.findRoute frame x y accept).run s).1.isSome := by
  intro ahead side slant turn c d first rest accept board p
  have hfirst : repaired first = first := by decide
  have hc : readClause (first ++ '.' :: rest) = .ok c := by decide +kernel
  have hd : readClause (grouped first rest) = .ok d := by decide +kernel
  have hmark : '~' ∈ outside 0 first → '~' ∈ outside 0 rest := by decide
  have haccept : AnswersBy accept (·.length == 3) := fun _ _ => rfl
  have hreaches : p.Reaches ⟨.white, 0⟩ ⟨"", [c]⟩ ⟨2, 2⟩ := by
    unfold Position.Reaches
    cbv
  obtain ⟨⟨-, hfinds, -⟩, -, htexts⟩ := andThen_regroup (.step ahead) (.step side) (.step slant) hfirst rest
  obtain ⟨-, hsame⟩ := (htexts c d hc hd).2 p ⟨.white, 0⟩ [] [] "" "" ⟨2, 2⟩
  exact ⟨hfirst, hc, hd, hmark, haccept, hreaches, (hsame hmark).mp hreaches, hfinds ℕ accept _ haccept⟩

/-- A leaper goes over a pawn of its own, and stops before it once its mark is in a group. -/
theorem reaches_of_hidden_leaper :
    let ahead (leaper : Bool) : Pattern := .step {
      shape := .orthogonal, heading := .forward false, distance := .single (.exact 1), gait := { leaper } }
    let leaps : Grammar := ⟨"~1>+.1>+.1>+", [{
      source := "~1>+.1>+.1>+"
      pattern := .andThen (ahead true) (.andThen (ahead false) (ahead false))
      leaper := true }]⟩
    let stops : Grammar := ⟨"(~1>+.1>+).1>+", [{
      source := "(~1>+.1>+).1>+"
      pattern := .andThen (.ride (.fixed 1) {} (.andThen (ahead true) (ahead false))) (ahead false) }]⟩
    let board : Bounds := { left := 0, right := 1, bottom := 0, top := 4 }
    let p := ((Piece.standard? .bishop ⟨0, 0⟩ .white board).toList ++
      (Piece.standard? .pawn ⟨0, 1⟩ .white board).toList).foldl Position.add { bounds := board }
    Grammar.read "~1>+.1>+.1>+" = .ok leaps ∧ Grammar.read "(~1>+.1>+).1>+" = .ok stops ∧
      p.Reaches ⟨.white, 0⟩ leaps ⟨0, 3⟩ ∧ ¬p.Reaches ⟨.white, 0⟩ stops ⟨0, 3⟩ := by
  intro ahead leaps stops board p
  have hleaps : (p.recast ⟨.white, 0⟩ leaps).move? ⟨.white, 0⟩ ⟨0, 3⟩ =
      some { mover := ⟨.white, 0⟩, origin := ⟨0, 0⟩, target := ⟨0, 3⟩ } := by cbv
  have hstops : (p.recast ⟨.white, 0⟩ stops).move? ⟨.white, 0⟩ ⟨0, 3⟩ = none := by cbv
  refine ⟨by decide +kernel, by decide +kernel, ?_, ?_⟩
  · rw [Position.Reaches, hleaps, Option.isSome_some]
  · rw [Position.Reaches, hstops, Option.isSome_none]
    exact Bool.false_ne_true

end FairyChess
