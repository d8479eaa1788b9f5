import FairyChess.Proofs.Movement.Repair
import FairyChess.Proofs.Movement.Sequences

/-!
Clauses whose first parts are put in a group of their own. They are read as before, with a ride of one part
around these parts, and have the same routes. Only the mark of a leaper can be lost to the group.
-/
namespace FairyChess

/-- Two clauses with the same marks. They may differ in that of a leaper. -/
def Clause.SameMarks (c d : Clause) : Prop :=
  d = { c with source := d.source, pattern := d.pattern, leaper := d.leaper }

theorem Clause.SameMarks.symm {c d : Clause} (h : c.SameMarks d) : d.SameMarks c := by
  unfold SameMarks at h ⊢
  rw [h]

namespace Movement

section Texts

variable {depth : ℕ} {c : Char} {cs text rest : List Char}

/-- How many groups are open after a character. -/
def depthAfter (depth : ℕ) (c : Char) : ℕ :=
  if c = '(' then depth + 1 else if c = ')' then depth - 1 else depth

/-- No repair outside all groups begins by closing one. -/
theorem repairFrom_zero_ne (cs rest : List Char) : repairFrom 0 cs ≠ ')' :: rest := by
  induction cs with
  | nil => nofun
  | cons c cs ih =>
    intro h
    rw [repairFrom, if_pos (rfl : 0 = 0)] at h
    split_ifs at h with hopen hshut
    · rw [hopen] at h
      cases h
    · exact ih h
    · exact hshut (List.head_eq_of_cons_eq h)

/-- The rest of a balanced text is balanced, and no parenthesis of it matches nothing. -/
theorem of_repairFrom_cons (h : repairFrom depth (c :: cs) = c :: cs) :
    repairFrom (depthAfter depth c) cs = cs ∧ (c = ')' → depth ≠ 0) := by
  rw [repairFrom] at h
  unfold depthAfter
  split_ifs at h ⊢ with hopen hshut hdepth
  · exact ⟨List.tail_eq_of_cons_eq h, fun hshut => absurd (hopen.symm.trans hshut) (by decide)⟩
  · rw [hshut] at h
    exact absurd h (repairFrom_zero_ne cs cs)
  · exact ⟨List.tail_eq_of_cons_eq h, fun _ => hdepth⟩
  · exact ⟨List.tail_eq_of_cons_eq h, fun heq => absurd heq hshut⟩

theorem outside_append (h : repairFrom depth text = text) (rest : List Char) :
    outside depth (text ++ rest) = outside depth text ++ outside 0 rest := by
  induction text generalizing depth with
  | nil =>
    have hdepth : depth = 0 := by simpa [repairFrom] using h
    rw [hdepth]
    rfl
  | cons c cs ih =>
    obtain ⟨hcs, -⟩ := of_repairFrom_cons h
    have hih := ih hcs
    rw [List.cons_append, outside, outside]
    unfold depthAfter at hih
    split_ifs at hih ⊢
    · exact hih
    · exact hih
    · rw [hih, List.cons_append]
    · exact hih

/-- Nothing of a balanced text is outside the group around it. -/
theorem outside_grouped (h : repairFrom depth text = text) (rest : List Char) :
    outside (depth + 1) (text ++ ')' :: rest) = outside 0 rest := by
  induction text generalizing depth with
  | nil =>
    have hdepth : depth = 0 := by simpa [repairFrom] using h
    rw [hdepth]
    rfl
  | cons c cs ih =>
    obtain ⟨hcs, hshut⟩ := of_repairFrom_cons h
    have hih := ih hcs
    rw [List.cons_append, outside, if_neg (Nat.succ_ne_zero depth)]
    unfold depthAfter at hih
    split_ifs at hih ⊢ with hopen hclose
    · exact hih
    · have hdepth : depth + 1 - 1 = depth - 1 + 1 := by
        have hne := hshut hclose
        omega
      rwa [hdepth]
    · exact hih

end Texts

section Readers

variable {clause clause' : List Char} {base : List Pattern} {around : List Opening} {r r' : Reader}
variable {c : Char} {cs : List Char}

variable (clause) in
theorem Reader.finish_append (r : Reader) (cs cs' : List Char) : r.finish clause (cs ++ cs') =
    cs.foldlM (Reader.next clause) r >>= fun s => s.finish clause cs' := by
  simp only [Reader.finish, List.foldlM_append, bind_assoc]

theorem Reader.finish_ok {p : Pattern} (h : r.finish clause cs = .ok p) : r.finish clause' cs = .ok p := by
  induction cs generalizing r with
  | nil => exact Level.finish_ok h
  | cons c cs ih =>
    rw [Reader.finish_cons] at h ⊢
    obtain ⟨s, hs, h⟩ := of_bind_eq_ok h
    rw [Reader.next_ok hs]
    exact ih h

theorem Reader.length_outer_next {s : Reader} (h : r.next clause c = .ok s) :
    s.outer.length = depthAfter r.outer.length c := by
  obtain ⟨⟨done, part⟩, outer⟩ := r
  unfold depthAfter
  split_ifs with hopen hshut
  · subst hopen
    cases part with
    | text lead =>
      obtain rfl := Except.ok.inj h
      rfl
    | group => cases h
  · subst hshut
    cases outer with
    | cons opening outer =>
      obtain ⟨p, -, h⟩ := of_bind_eq_ok h
      obtain rfl := Except.ok.inj h
      rfl
    | nil =>
      cases part with
      | text chars =>
        obtain rfl := Except.ok.inj h
        rfl
      | group lead pattern trail =>
        obtain ⟨p, -, h⟩ := of_bind_eq_ok h
        cases h
  · by_cases hdot : c = '.'
    · subst hdot
      obtain ⟨p, -, h⟩ := of_bind_eq_ok h
      obtain rfl := Except.ok.inj h
      rfl
    · rw [Reader.next_of_plain clause hopen hshut hdot] at h
      obtain rfl := Except.ok.inj h
      rfl

/-- The second state has all that the first has. In front of its outermost level other parts were read, and other
groups are open around it. -/
inductive Reader.Within (base : List Pattern) (around : List Opening) : Reader → Reader → Prop
  | outermost (done : List Pattern) (part : Part) :
      Within base around ⟨⟨done, part⟩, []⟩ ⟨⟨done ++ base, part⟩, around⟩
  | inner (level : Level) (outer : List Opening) (done : List Pattern) (lead : List Char) :
      Within base around ⟨level, outer ++ [⟨done, lead⟩]⟩ ⟨level, outer ++ ⟨done ++ base, lead⟩ :: around⟩

/-- A character that does not close a group around it is read in the same way. -/
theorem Reader.Within.next (h : r.Within base around r') (hfit : c = ')' → r.outer ≠ [] ∨ around = []) :
    Agree (Within base around) (r.next clause c) (r'.next clause c) := by
  by_cases hplain : c ≠ '(' ∧ c ≠ ')' ∧ c ≠ '.'
  · obtain ⟨hopen, hshut, hdot⟩ := hplain
    rw [Reader.next_of_plain clause hopen hshut hdot, Reader.next_of_plain clause hopen hshut hdot]
    cases h with
    | outermost done part => exact .outermost done (part.add c)
    | inner level outer done lead => exact .inner ⟨level.done, level.part.add c⟩ outer done lead
  obtain rfl | rfl | rfl : c = '(' ∨ c = ')' ∨ c = '.' := by tauto
  · cases h with
    | outermost done part =>
      cases part with
      | text lead => exact .inner {} [] done lead
      | group => exact rfl
    | inner level outer done lead =>
      obtain ⟨done', part⟩ := level
      cases part with
      | text lead' => exact .inner {} (⟨done', lead'⟩ :: outer) done lead
      | group => exact rfl
  · cases h with
    | outermost done part =>
      obtain rfl := (hfit rfl).resolve_left (· rfl)
      cases part with
      | text chars => exact .outermost done (.text chars)
      | group => exact Agree.bind_self fun _ => rfl
    | inner level outer done lead =>
      cases outer with
      | nil => exact Agree.bind_self fun p => .outermost done (.group lead p [])
      | cons opening outer => exact Agree.bind_self fun p => .inner (opening.resume p) outer done lead
  · cases h with
    | outermost done part => exact Agree.bind_self fun p => .outermost (p :: done) (.text [])
    | inner level outer done lead =>
      exact Agree.bind_self fun p => .inner ⟨p :: level.done, .text []⟩ outer done lead

/-- So is a text that closes no group around it. -/
theorem Reader.Within.foldlM (h : r.Within base around r')
    (hfit : around = [] ∨ repairFrom r.outer.length cs = cs) :
    Agree (Within base around) (cs.foldlM (Reader.next clause) r) (cs.foldlM (Reader.next clause) r') := by
  induction cs generalizing r r' with
  | nil => exact h
  | cons c cs ih =>
    rw [List.foldlM_cons, List.foldlM_cons]
    have hnext : Agree (Within base around) (r.next clause c) (r'.next clause c) := by
      refine h.next fun hshut => ?_
      rcases hfit with hnone | hbalanced
      · exact .inr hnone
      · exact .inl fun hnil => (of_repairFrom_cons hbalanced).2 hshut (by rw [hnil]; rfl)
    refine hnext.bind fun s s' hs hwithin => ih hwithin ?_
    rw [Reader.length_outer_next hs]
    exact hfit.imp_right fun hbalanced => (of_repairFrom_cons hbalanced).1

/-- A balanced text leaves no group open. -/
theorem Reader.outer_eq_nil {s : Reader} (h : cs.foldlM (Reader.next clause) r = .ok s)
    (hbalanced : repairFrom r.outer.length cs = cs) : s.outer = [] := by
  induction cs generalizing r with
  | nil =>
    obtain rfl := Except.ok.inj h
    simpa [repairFrom] using hbalanced
  | cons c cs ih =>
    rw [List.foldlM_cons] at h
    obtain ⟨t, ht, h⟩ := of_bind_eq_ok h
    refine ih h ?_
    rw [Reader.length_outer_next ht]
    exact (of_repairFrom_cons hbalanced).1

theorem Reader.Within.close (h : r.Within base [] r') :
    Agree (fun p q => q = Pattern.chain base p) (r.level.finish clause r.outer)
      (r'.level.finish clause r'.outer) := by
  have houtermost (done : List Pattern) (part : Part) :
      Agree (fun p q => q = Pattern.chain base p) ((⟨done, part⟩ : Level).finish clause [])
        ((⟨done ++ base, part⟩ : Level).finish clause []) :=
    Agree.bind_self fun _ => List.foldl_append
  cases h with
  | outermost done part => exact houtermost done part
  | inner level outer done lead =>
    induction outer generalizing level with
    | nil => exact Agree.bind_self fun p => houtermost done (.group lead p [])
    | cons opening outer ih => exact Agree.bind_self fun p => ih (opening.resume p)

/-- What comes after some parts of a clause is read as if it came first. -/
theorem Reader.finish_base (clause : List Char) (base : List Pattern) (cs : List Char) :
    (⟨⟨base, .text []⟩, []⟩ : Reader).finish clause cs =
      (({} : Reader).finish clause cs).map (Pattern.chain base) := by
  have hwithin : Reader.Within base [] {} ⟨⟨base, .text []⟩, []⟩ := .outermost [] (.text [])
  have hagree : Agree (fun p q => q = Pattern.chain base p) (({} : Reader).finish clause cs)
      ((⟨⟨base, .text []⟩, []⟩ : Reader).finish clause cs) :=
    (hwithin.foldlM (.inl rfl)).bind fun _ _ _ h => h.close
  exact hagree.eq_map

end Readers

section Groups

variable {first rest : List Char}

/-- The clause with its first parts in a group. -/
def grouped (first rest : List Char) : List Char :=
  '(' :: first ++ ')' :: '.' :: rest

/-- Parts that are put in a group are read to a pattern with the same routes, and refused for the same reason. -/
theorem agree_grouped (clause : List Char) (h : repaired first = first) (rest : List Char) :
    Agree Pattern.Alike (({} : Reader).finish clause (first ++ '.' :: rest))
      (({} : Reader).finish clause (grouped first rest)) := by
  have hwithin : Reader.Within [] [⟨[], []⟩] {} ⟨{}, [⟨[], []⟩]⟩ := .outermost [] (.text [])
  have hopen : ({} : Reader).next clause '(' = .ok ⟨{}, [⟨[], []⟩]⟩ := rfl
  rw [grouped, List.cons_append, Reader.finish_cons, hopen, ok_bind, Reader.finish_append, Reader.finish_append]
  refine (hwithin.foldlM (.inr h)).bind fun s s' hs hstate => ?_
  have houter : s.outer = [] := Reader.outer_eq_nil hs h
  cases hstate with
  | inner => simp at houter
  | outermost done part =>
    -- Both have come to the end of the last part, and the group is closed just after it.
    have hpart : (⟨⟨done, part⟩, []⟩ : Reader).next clause '.' =
        part.close clause >>= fun last => .ok ⟨⟨last :: done, .text []⟩, []⟩ := rfl
    have hgroup : (⟨⟨done, part⟩, [⟨[], []⟩]⟩ : Reader).next clause ')' =
        part.close clause >>= fun last => .ok ⟨⟨[], .group [] (.chain done last) []⟩, []⟩ := by
      change (part.close clause >>= _) >>= _ = _
      rw [bind_assoc]
      rfl
    have hride (p : Pattern) : (⟨⟨[], .group [] p []⟩, []⟩ : Reader).next clause '.' =
        .ok ⟨⟨[.ride (.fixed 1) {} p], .text []⟩, []⟩ := rfl
    rw [List.append_nil, Reader.finish_cons, Reader.finish_cons, hpart, hgroup, bind_assoc, bind_assoc]
    refine Agree.bind_self fun last => ?_
    rw [ok_bind, ok_bind, Reader.finish_cons, hride, ok_bind, Reader.finish_base clause (last :: done),
      Reader.finish_base clause [_]]
    cases ({} : Reader).finish clause rest with
    | error e => rfl
    | ok after =>
      have hbare := (Pattern.alike_ride_one (.chain done last)).andThen (.refl after)
      exact (hbare.trans (Pattern.alike_andThen_chain done last after)).symm

theorem exists_readClause_grouped (h : repaired first = first) (rest : List Char) :
    (∃ c, readClause (first ++ '.' :: rest) = .ok c) ↔ ∃ d, readClause (grouped first rest) = .ok d := by
  have hread {clause : List Char} : (∃ c, readClause clause = .ok c) ↔
      ∃ p, ({} : Reader).finish clause clause = .ok p := by
    constructor
    · rintro ⟨c, hc⟩
      obtain ⟨p, hp, -⟩ := of_bind_eq_ok hc
      exact ⟨p, hp⟩
    · rintro ⟨p, hp⟩
      exact ⟨_, bind_eq_ok_iff.mpr ⟨p, hp, rfl⟩⟩
  rw [hread, hread]
  constructor
  · rintro ⟨p, hp⟩
    obtain ⟨q, hq, -⟩ := (agree_grouped _ h rest).exists_ok hp
    exact ⟨q, Reader.finish_ok hq⟩
  · rintro ⟨q, hq⟩
    obtain ⟨p, hp, -⟩ := (agree_grouped _ h rest).symm.exists_ok hq
    exact ⟨p, Reader.finish_ok hp⟩

theorem contains_grouped {c : Char} (hopen : c ≠ '(') (hshut : c ≠ ')') (first rest : List Char) :
    (grouped first rest).contains c = (first ++ '.' :: rest).contains c := by
  simp [grouped, hopen, hshut]

/-- Both clauses have the same routes and the same marks, but the group hides a leaper's mark in it. -/
theorem of_readClause_grouped {c d : Clause} (h : repaired first = first)
    (hc : readClause (first ++ '.' :: rest) = .ok c) (hd : readClause (grouped first rest) = .ok d) :
    c.pattern.Alike d.pattern ∧ c.SameMarks d ∧
      c.leaper = ((outside 0 first).contains '~' || (outside 0 rest).contains '~') ∧
      d.leaper = (outside 0 rest).contains '~' := by
  obtain ⟨p, hp, hc⟩ := of_bind_eq_ok hc
  obtain ⟨q, hq, hd⟩ := of_bind_eq_ok hd
  obtain rfl := Except.ok.inj hc
  obtain rfl := Except.ok.inj hd
  obtain ⟨q', hq', halike⟩ := (agree_grouped _ h rest).exists_ok hp
  have hsame : readPattern (grouped first rest) = .ok q' := Reader.finish_ok hq'
  obtain rfl : q' = q := Except.ok.inj (hsame.symm.trans hq)
  have hflat : outside 0 (first ++ '.' :: rest) = outside 0 first ++ '.' :: outside 0 rest := outside_append h _
  have hgrouped : outside 0 (grouped first rest) = '.' :: outside 0 rest := outside_grouped h _
  refine ⟨halike, ?_, ?_, ?_⟩
  · unfold Clause.SameMarks
    dsimp only
    iterate 5 rw [contains_grouped (by decide) (by decide)]
  · dsimp only
    rw [hflat]
    simp
  · dsimp only
    rw [hgrouped]
    simp

end Groups

end Movement

end FairyChess
