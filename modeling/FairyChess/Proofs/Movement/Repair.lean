import FairyChess.Proofs.Movement.Image
import FairyChess.Proofs.Movement.Tokens

/-!
Clauses with unbalanced parentheses. They are read as if they were balanced, unless a closing
parenthesis is left over after a group.
-/
namespace FairyChess
open Movement Text

namespace Movement

/-- The rest of a clause inside `depth` groups, with the closing parentheses that match nothing left out
and the missing ones put at the end. -/
def repairFrom : ℕ → List Char → List Char
  | depth, [] => List.replicate depth ')'
  | depth, c :: cs =>
    if c = '(' then c :: repairFrom (depth + 1) cs
    else if c = ')' then
      if depth = 0 then repairFrom 0 cs else c :: repairFrom (depth - 1) cs
    else c :: repairFrom depth cs

def repaired (text : List Char) : List Char :=
  repairFrom 0 text

/-- Whether no closing parenthesis is left over after a group, counting groups since the last `.` outside
all of them. There has been one if `grouped`. -/
def straysFitFrom : ℕ → Bool → List Char → Bool
  | _, _, [] => true
  | depth, grouped, c :: cs =>
    if c = '(' then straysFitFrom (depth + 1) true cs
    else if c = ')' then
      if depth = 0 then !grouped && straysFitFrom 0 false cs
      else straysFitFrom (depth - 1) grouped cs
    else if c = '.' ∧ depth = 0 then straysFitFrom 0 false cs
    else straysFitFrom depth grouped cs

def straysFit (text : List Char) : Bool :=
  straysFitFrom 0 false text

section Texts

theorem mem_repairFrom {depth : ℕ} {cs : List Char} {c : Char} (h : c ∈ repairFrom depth cs) :
    c ∈ cs ∨ c = ')' := by
  fun_induction repairFrom depth cs with
  | case1 depth => exact .inr (List.eq_of_mem_replicate h)
  | case3 cs _ ih => exact (ih h).imp_left (List.mem_cons_of_mem _)
  | case2 depth cs ih | case4 depth cs _ _ ih | case5 depth c cs _ _ ih =>
    rcases List.mem_cons.mp h with rfl | h
    · exact .inl List.mem_cons_self
    · exact (ih h).imp_left (List.mem_cons_of_mem _)

theorem mem_repairFrom_of_mem {depth : ℕ} {cs : List Char} {c : Char} (h : c ∈ cs) (hc : c ≠ ')') :
    c ∈ repairFrom depth cs := by
  fun_induction repairFrom depth cs with
  | case1 depth => exact absurd h List.not_mem_nil
  | case3 cs _ ih =>
    rcases List.mem_cons.mp h with rfl | h
    · exact absurd rfl hc
    · exact ih h
  | case2 depth cs ih | case4 depth cs _ _ ih | case5 depth c cs _ _ ih =>
    rcases List.mem_cons.mp h with rfl | h
    · exact List.mem_cons_self
    · exact List.mem_cons_of_mem _ (ih h)

theorem contains_repaired {c : Char} (hc : c ≠ ')') (text : List Char) :
    (repaired text).contains c = text.contains c := by
  rw [Bool.eq_iff_iff, List.contains_iff_mem, List.contains_iff_mem]
  exact ⟨fun h => (mem_repairFrom h).resolve_right hc, fun h => mem_repairFrom_of_mem h hc⟩

theorem outside_replicate (depth n : ℕ) : outside depth (List.replicate n ')') = [] := by
  induction n generalizing depth with
  | zero => rfl
  | succ n ih =>
    rw [List.replicate_succ, outside, if_neg (by decide), if_pos rfl]
    exact ih (depth - 1)

/-- A repair leaves alone what stands outside the groups. -/
theorem outside_repairFrom (depth : ℕ) (cs : List Char) :
    outside depth (repairFrom depth cs) = outside depth cs := by
  fun_induction repairFrom depth cs with
  | case1 depth => exact outside_replicate depth depth
  | case2 depth cs ih => simpa [outside] using ih
  | case3 cs _ ih => simpa [outside] using ih
  | case4 depth cs _ _ ih => simpa [outside] using ih
  | case5 depth c cs hopen hshut ih => simp only [outside, hopen, hshut, if_false, ih]

end Texts

section Clauses

variable (clause clause' : List Char)

/-- Reads the rest of a clause. -/
def Reader.finish (r : Reader) (cs : List Char) : Except MovementError Pattern := do
  let r ← cs.foldlM (Reader.next clause) r
  r.level.finish clause r.outer

theorem Reader.finish_cons (r : Reader) (c : Char) (cs : List Char) :
    r.finish clause (c :: cs) = r.next clause c >>= fun r' => r'.finish clause cs := by
  rw [Reader.finish, List.foldlM_cons]
  cases Reader.next clause r c <;> rfl

/-- The groups that are open at the end are closed as if the parentheses were there. -/
theorem Reader.finish_replicate (level : Level) (outer : List Opening) :
    (⟨level, outer⟩ : Reader).finish clause (List.replicate outer.length ')') =
      level.finish clause outer := by
  induction outer generalizing level with
  | nil => rfl
  | cons opening outer ih =>
    rw [List.length_cons, List.replicate_succ, Reader.finish_cons, Level.finish]
    unfold Reader.next
    dsimp only
    cases level.close clause with
    | error e => rfl
    | ok p => exact ih (opening.resume p)

variable {clause clause'}

/-! The clause is only quoted in errors. -/

theorem readShape_ok {marks : List Char} {d : Distance} {shape : Shape}
    (h : readShape clause marks d = .ok shape) : readShape clause' marks d = .ok shape := by
  unfold readShape at h ⊢
  split at h
  · exact h
  · split at h
    · next hall => rwa [if_pos hall]
    · cases h

theorem readStep_ok {text : List Char} {s : Step} (h : readStep clause text = .ok s) :
    readStep clause' text = .ok s := by
  obtain ⟨⟨d, marks⟩, hdistance, h⟩ := of_bind_eq_ok h
  dsimp only at h
  split at h
  · cases h
  · next hmarks =>
    obtain ⟨shape, hshape, h⟩ := of_bind_eq_ok h
    rw [readStep, hdistance]
    change (if marks.any isDistanceMark then _ else _) = _
    rw [if_neg hmarks, readShape_ok hshape]
    exact h

theorem readCount_ok {lead : List Char} {found : Count × List Char}
    (h : readCount clause lead = .ok found) : readCount clause' lead = .ok found := by
  unfold readCount at h ⊢
  split at h
  · exact h
  · split at h
    · exact h
    · dsimp only at h ⊢
      split at h
      · next hlimit => rwa [if_pos hlimit]
      · cases h

theorem Part.close_ok {part : Part} {p : Pattern} (h : part.close clause = .ok p) :
    part.close clause' = .ok p := by
  unfold Part.close at h ⊢
  split at h
  · cases h
  · obtain ⟨s, hs, rfl⟩ := of_map_eq_ok h
    rw [readStep_ok hs]
    rfl
  · obtain ⟨count, before, hcount, hmarks, rfl⟩ := readRide_eq_ok_iff.mp h
    exact readRide_eq_ok_iff.mpr ⟨count, before, readCount_ok hcount, hmarks, rfl⟩

theorem Level.close_ok {level : Level} {p : Pattern} (h : level.close clause = .ok p) :
    level.close clause' = .ok p := by
  obtain ⟨last, hlast, h⟩ := of_bind_eq_ok h
  rw [Level.close, Part.close_ok hlast]
  exact h

theorem Level.finish_ok {level : Level} {outer : List Opening} {p : Pattern}
    (h : level.finish clause outer = .ok p) : level.finish clause' outer = .ok p := by
  induction outer generalizing level with
  | nil => exact Level.close_ok h
  | cons opening outer ih =>
    obtain ⟨q, hq, h⟩ := of_bind_eq_ok h
    rw [Level.finish, Level.close_ok hq]
    exact ih h

theorem Reader.next_ok {r r' : Reader} {c : Char} (h : r.next clause c = .ok r') :
    r.next clause' c = .ok r' := by
  unfold Reader.next at h ⊢
  split at h
  · obtain ⟨p, hp, h⟩ := of_bind_eq_ok h
    rw [Part.close_ok hp]
    exact h
  · split at h
    · exact h
    · cases h
  · split at h
    · obtain ⟨p, hp, h⟩ := of_bind_eq_ok h
      rw [Level.close_ok hp]
      exact h
    · exact h
    · obtain ⟨p, hp, h⟩ := of_bind_eq_ok h
      cases h
  · exact h

/-- A part with one more character. -/
def Part.add (c : Char) : Part → Part
  | .text chars => .text (chars ++ [c])
  | .group lead pattern trail => .group lead pattern (trail ++ [c])

def Part.isGroup : Part → Bool
  | .text _ => false
  | .group .. => true

@[simp] theorem Part.isGroup_add (c : Char) (part : Part) : (part.add c).isGroup = part.isGroup := by
  cases part <;> rfl

variable (clause) in
theorem Reader.next_of_plain {c : Char} (hopen : c ≠ '(') (hshut : c ≠ ')') (hdot : c ≠ '.')
    (r : Reader) : r.next clause c = .ok ⟨⟨r.level.done, r.level.part.add c⟩, r.outer⟩ := by
  unfold Reader.next
  split
  · contradiction
  · contradiction
  · contradiction
  · cases r.level.part <;> rfl

/-- Whether a group has been opened since the last `.` outside all of them. -/
def Reader.grouped (r : Reader) : Bool :=
  !r.outer.isEmpty || r.level.part.isGroup

/-- Less text after a group still leaves a ride. -/
theorem readRide_of_append {lead trail more : List Char} {pattern p : Pattern}
    (h : readRide clause lead pattern (trail ++ more) = .ok p) :
    ∃ q, readRide clause' lead pattern trail = .ok q := by
  obtain ⟨count, before, hcount, hmarks, -⟩ := readRide_eq_ok_iff.mp h
  rw [← List.append_assoc] at hmarks
  have hfewer : ∀ c ∈ before ++ trail, c ∈ rideMarks :=
    fun c hc => hmarks c (List.mem_append_left more hc)
  exact ⟨_, readRide_eq_ok_iff.mpr ⟨count, before, readCount_ok hcount, hfewer, rfl⟩⟩

theorem readRide_of_finish {done : List Pattern} {lead trail cs : List Char} {pattern p : Pattern}
    (h : (⟨⟨done, .group lead pattern trail⟩, []⟩ : Reader).finish clause (repairFrom 0 cs) = .ok p) :
    ∃ q, readRide clause lead pattern trail = .ok q := by
  induction cs generalizing trail with
  | nil =>
    obtain ⟨r, hr, hclose⟩ := of_bind_eq_ok h
    obtain rfl := Except.ok.inj hr
    obtain ⟨q, hq, -⟩ := of_bind_eq_ok hclose
    exact ⟨q, hq⟩
  | cons c cs ih =>
    by_cases hopen : c = '('
    · rw [repairFrom, if_pos hopen, hopen, Reader.finish_cons] at h
      cases h
    by_cases hshut : c = ')'
    · rw [repairFrom, if_neg hopen, if_pos hshut, if_pos rfl] at h
      exact ih h
    rw [repairFrom, if_neg hopen, if_neg hshut, Reader.finish_cons] at h
    by_cases hdot : c = '.'
    · subst hdot
      obtain ⟨r, hr, -⟩ := of_bind_eq_ok h
      obtain ⟨q, hq, -⟩ := of_bind_eq_ok hr
      exact ⟨q, hq⟩
    · rw [Reader.next_of_plain clause hopen hshut hdot] at h
      obtain ⟨q, hq⟩ := ih h
      exact readRide_of_append hq

variable (clause) in
/-- A parenthesis left over after a group that can be read is refused. -/
theorem Reader.next_of_stray {done : List Pattern} {lead trail : List Char} {pattern q : Pattern}
    (h : readRide clause' lead pattern trail = .ok q) :
    (⟨⟨done, .group lead pattern trail⟩, []⟩ : Reader).next clause ')' =
      .error (.unexpectedToken ')' (String.ofList clause)) := by
  have hclose : (Part.group lead pattern trail).close clause' = .ok q := h
  unfold Reader.next
  change ((Part.group lead pattern trail).close clause >>= fun _ => _) = _
  rw [Part.close_ok hclose]
  rfl

variable (clause) in
/-- Reading a text against its repair, from any state. The repair puts its parentheses where the reader
closes what is open, and it leaves out those that the reader drops. -/
theorem Reader.finish_of_repairFrom {r : Reader} {cs : List Char} {p : Pattern}
    (h : r.finish clause' (repairFrom r.outer.length cs) = .ok p) :
    r.finish clause cs =
      if straysFitFrom r.outer.length r.grouped cs then .ok p
      else .error (.unexpectedToken ')' (String.ofList clause)) := by
  induction cs generalizing r with
  | nil =>
    rw [repairFrom, Reader.finish_replicate] at h
    rw [straysFitFrom, if_pos rfl]
    exact Level.finish_ok h
  | cons c cs ih =>
    -- A character that the repair keeps leads both texts to the same state.
    have hkept : ∀ {r' : Reader}, r.next clause' c = .ok r' →
        straysFitFrom r.outer.length r.grouped (c :: cs) =
          straysFitFrom r'.outer.length r'.grouped cs →
        r'.finish clause' (repairFrom r'.outer.length cs) = .ok p →
        r.finish clause (c :: cs) =
          if straysFitFrom r.outer.length r.grouped (c :: cs) then .ok p
          else .error (.unexpectedToken ')' (String.ofList clause)) := by
      intro r' hnext hfit hrest
      rw [Reader.finish_cons, Reader.next_ok hnext, hfit]
      exact ih hrest
    obtain ⟨⟨done, part⟩, outer⟩ := r
    by_cases hopen : c = '('
    · subst hopen
      rw [repairFrom, if_pos rfl, Reader.finish_cons] at h
      cases part with
      | text lead => exact hkept rfl rfl h
      | group lead pattern trail => cases h
    by_cases hshut : c = ')'
    · subst hshut
      rw [repairFrom, if_neg hopen, if_pos rfl] at h
      cases outer with
      | cons opening outer =>
        rw [List.length_cons, if_neg (Nat.succ_ne_zero _), Reader.finish_cons] at h
        obtain ⟨r', hnext, hrest⟩ := of_bind_eq_ok h
        obtain ⟨q, hq, hr'⟩ := of_bind_eq_ok hnext
        obtain rfl := Except.ok.inj hr'
        refine hkept hnext ?_ hrest
        simp [straysFitFrom, Reader.grouped, Opening.resume, Part.isGroup]
      | nil =>
        rw [List.length_nil, if_pos rfl] at h
        cases part with
        | text chars =>
          have hfit : straysFitFrom 0 false (')' :: cs) = straysFitFrom 0 false cs := by
            simp [straysFitFrom]
          rw [Reader.finish_cons]
          change Reader.finish clause ⟨⟨done, .text chars⟩, []⟩ cs =
            if straysFitFrom 0 false (')' :: cs) then _ else _
          rw [hfit]
          exact ih h
        | group lead pattern trail =>
          have hstray : straysFitFrom 0 true (')' :: cs) = false := by simp [straysFitFrom]
          obtain ⟨q, hq⟩ := readRide_of_finish h
          rw [Reader.finish_cons, Reader.next_of_stray clause hq]
          change _ = if straysFitFrom 0 true (')' :: cs) then _ else _
          rw [hstray]
          rfl
    rw [repairFrom, if_neg hopen, if_neg hshut, Reader.finish_cons] at h
    by_cases hdot : c = '.'
    · subst hdot
      obtain ⟨r', hnext, hrest⟩ := of_bind_eq_ok h
      obtain ⟨q, hq, hr'⟩ := of_bind_eq_ok hnext
      obtain rfl := Except.ok.inj hr'
      refine hkept hnext ?_ hrest
      cases outer with
      | nil => rfl
      | cons opening outer => rfl
    · have hnext := Reader.next_of_plain clause' hopen hshut hdot ⟨⟨done, part⟩, outer⟩
      rw [hnext] at h
      refine hkept hnext ?_ h
      simp [straysFitFrom, hopen, hshut, hdot, Reader.grouped]

variable {text : List Char}

/-- The marks of a clause are the same in its repair. -/
theorem readClause_of_repaired {c : Clause} (h : readClause (repaired text) = .ok c) :
    readClause text =
      if straysFit text then .ok { c with source := String.ofList text }
      else .error (.unexpectedToken ')' (String.ofList text)) := by
  obtain ⟨p, hp, h⟩ := of_bind_eq_ok h
  obtain rfl := Except.ok.inj h
  have hread : readPattern text =
      if straysFit text then .ok p
      else .error (.unexpectedToken ')' (String.ofList text)) :=
    Reader.finish_of_repairFrom text hp
  have houtside : outside 0 (repaired text) = outside 0 text := outside_repairFrom 0 text
  rw [readClause, hread, houtside]
  iterate 5 rw [contains_repaired (by decide)]
  cases straysFit text <;> rfl

end Clauses

end Movement

open Movement Text

/-- A clause whose parentheses do not match is read as its repair. Only a closing parenthesis left over
after a group is refused. -/
theorem Grammar.read_of_repaired {text : List Char} (htokens : ∀ c ∈ text, isToken c)
    (hcomma : ',' ∉ text) {g : Grammar} {c : Clause}
    (h : Grammar.read (String.ofList (repaired text)) = .ok g) (hc : g.clauses = [c]) :
    Grammar.read (String.ofList text) =
      if straysFit text then .ok ⟨String.ofList text, [{ c with source := String.ofList text }]⟩
      else .error (.unexpectedToken ')' (String.ofList text)) := by
  have htokens' : ∀ c ∈ repaired text, isToken c := by
    intro c hc
    rcases mem_repairFrom hc with hc | rfl
    · exact htokens c hc
    · decide
  have hcomma' : ',' ∉ repaired text := fun hmem => by
    rcases mem_repairFrom hmem with hmem | hshut
    · exact hcomma hmem
    · cases hshut
  have hne' : repaired text ≠ [] := by
    intro hnil
    rw [hnil] at h
    obtain rfl : (⟨"", []⟩ : Grammar) = g := Except.ok.inj h
    cases hc
  have hne : text ≠ [] := by
    rintro rfl
    exact hne' rfl
  rw [Grammar.read_ofList_clause htokens' hcomma' hne'] at h
  obtain ⟨clause, hclause, rfl⟩ := of_map_eq_ok h
  obtain rfl := List.head_eq_of_cons_eq hc
  rw [Grammar.read_ofList_clause htokens hcomma hne, readClause_of_repaired hclause]
  cases straysFit text <;> rfl

/-- Two parentheses missing at the end and one too many inside a mark. -/
theorem Grammar.read_of_repaired_ride :
    ∃ g c, Grammar.read "~n(1x.(1+))" = .ok g ∧ g.clauses = [c] ∧
      Grammar.read "~)n(1x.(1+" =
        .ok ⟨"~)n(1x.(1+", [{ c with source := "~)n(1x.(1+" }]⟩ := by
  have htokens : ∀ c ∈ "~)n(1x.(1+".toList, isToken c := List.all_iff_forall_prop.mp (by decide)
  refine ⟨_, _, rfl, rfl, ?_⟩
  exact Grammar.read_of_repaired htokens (by decide) rfl rfl

theorem Grammar.read_of_stray :
    repaired "n(1x))".toList = "n(1x)".toList ∧
    (∃ g c, Grammar.read "n(1x)" = .ok g ∧ g.clauses = [c]) ∧
    Grammar.read "n(1x))" = .error (.unexpectedToken ')' "n(1x))") := by
  refine ⟨by decide, ⟨_, _, rfl, rfl⟩, rfl⟩

end FairyChess
