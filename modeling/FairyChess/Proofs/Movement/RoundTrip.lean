import FairyChess.Proofs.Movement.Image
import FairyChess.Proofs.Movement.Tokens

/-! Reading gives back the canonical patterns that were written. -/
namespace FairyChess
open Movement Text

section Characters

/-- The characters inside a part of a sequence, which neither end it nor open a group. -/
def Movement.isInner (c : Char) : Bool :=
  isToken c && !(['.', '(', ')', ','].contains c)

theorem isInner_of_isDistanceMark {c : Char} (h : isDistanceMark c = true) : isInner c = true := by
  have hdigits : ∀ c ∈ ['0', '1', '2', '3', '4', '5', '6', '7', '8', '9'], isInner c = true :=
    List.all_iff_forall_prop.mp (by decide)
  simp only [isDistanceMark, isLength, Bool.or_eq_true, beq_iff_eq] at h
  rcases h with ((hdigit | rfl) | rfl) | rfl
  · exact hdigits c (mem_digits_of_isDigit hdigit)
  all_goals decide

theorem isInner_of_mem_step {s : Step} {c : Char} (h : c ∈ s.written) : isInner c = true := by
  have hset : ∀ c ∈ Step.markSet, isInner c = true := List.all_iff_forall_prop.mp (by decide)
  rcases List.mem_append.mp h with h | h
  · exact isInner_of_isDistanceMark (isDistanceMark_of_mem_distance h)
  · exact hset c (s.mem_markSet h)

theorem mem_gait_marks {g : Gait} {c : Char} (h : c ∈ g.marks) : c ∈ ['~', '^'] := by
  simp only [Gait.marks, List.mem_append, mem_flag] at h
  rcases h with ⟨rfl, -⟩ | ⟨rfl, -⟩ <;> decide

theorem isInner_of_mem_lead (g : Gait) (count : Count) {c : Char}
    (h : c ∈ g.marks ++ count.written) : isInner c = true := by
  have hset : ∀ c ∈ ['~', '^'], isInner c = true := List.all_iff_forall_prop.mp (by decide)
  have hlength {n : Option ℕ} (hc : c ∈ writtenLength n) : isInner c = true := by
    have hmark : isDistanceMark c = true := by
      rw [isDistanceMark, isLength_of_mem_writtenLength hc]
      rfl
    exact isInner_of_isDistanceMark hmark
  rcases List.mem_append.mp h with h | h
  · exact hset c (mem_gait_marks h)
  · cases count with
    | fixed n => exact hlength (n := some n) h
    | wildcard => exact hlength (n := none) h

theorem isToken_of_mem_written {p : Pattern} {c : Char} (h : c ∈ p.written) :
    isToken c = true ∧ c ≠ ',' := by
  have hinner {c : Char} (h : isInner c = true) : isToken c = true ∧ c ≠ ',' := by
    refine ⟨((Bool.and_eq_true _ _).mp h).1, ?_⟩
    rintro rfl
    exact absurd h (by decide)
  induction p with
  | step s => exact hinner (isInner_of_mem_step h)
  | ride count gait pattern ih =>
    rcases List.mem_append.mp h with h | h
    · exact hinner (isInner_of_mem_lead gait count h)
    · rcases List.mem_cons.mp h with rfl | h
      · decide
      · rcases List.mem_append.mp h with h | h
        · exact ih h
        · obtain rfl := List.mem_singleton.mp h
          decide
  | andThen first second ihFirst ihSecond =>
    rcases List.mem_append.mp h with h | h
    · exact ihFirst h
    · rcases List.mem_cons.mp h with rfl | h
      · decide
      · exact ihSecond h

theorem marks_ne_nil {s : Step} (h : s.Canonical) : s.written ≠ [] := by
  intro hnil
  obtain ⟨hdistance, hmarks⟩ := List.append_eq_nil_iff.mp hnil
  have hshape : s.shape.marks = [] := List.eq_nil_iff_forall_not_mem.mpr fun c hc =>
    List.not_mem_nil (hmarks ▸ s.mem_marks.mpr (.inr (.inl hc)))
  have hfree : s.shape = .free := by
    cases hs : s.shape with
    | free => rfl
    | _ => rw [hs] at hshape; cases hshape
  have hpaired := h.free hfree
  cases hd : s.distance with
  | paired first second strict =>
    rw [hd] at hdistance
    exact List.append_ne_nil_of_right_ne_nil _ (List.cons_ne_nil _ _) hdistance
  | _ => rw [hd] at hpaired; cases hpaired

theorem written_ne_nil {p : Pattern} (h : p.Canonical) : p.written ≠ [] := by
  cases p with
  | step s => exact marks_ne_nil h
  | ride count gait pattern =>
    exact List.append_ne_nil_of_right_ne_nil _ (List.cons_ne_nil _ _)
  | andThen first second => exact List.append_ne_nil_of_right_ne_nil _ (List.cons_ne_nil _ _)

end Characters

section Rides

variable (clause : List Char)

/-- The count stands last before a group, so that it is found from the back. -/
theorem readCount_written {count : Count} (h : count.Canonical) {marks : List Char}
    (hmarks : ∀ c ∈ marks, c.isDigit = false) :
    readCount clause (marks ++ count.written) = .ok (count, marks) := by
  cases count with
  | wildcard =>
    have hback : (marks ++ ['n']).reverse = 'n' :: marks.reverse := by simp
    unfold readCount Count.written writtenLength
    rw [hback]
    simp
  | fixed n =>
    have hdigits : ∀ c ∈ (Nat.toDigits 10 n).reverse, c.isDigit = true := fun c hc =>
      Nat.isDigit_of_mem_toDigits (by decide) (by decide) (List.mem_reverse.mp hc)
    have hstop : marks.reverse.takeWhile Char.isDigit = [] ∧
        marks.reverse.dropWhile Char.isDigit = marks.reverse := by
      cases hback : marks.reverse with
      | nil => exact ⟨rfl, rfl⟩
      | cons c rest =>
        have hc : c.isDigit = false := hmarks c (List.mem_reverse.mp (hback ▸ List.mem_cons_self))
        rw [List.takeWhile_cons, List.dropWhile_cons, hc]
        exact ⟨rfl, rfl⟩
    have hback : (marks ++ Nat.toDigits 10 n).reverse =
        (Nat.toDigits 10 n).reverse ++ marks.reverse := List.reverse_append
    have htake : ((Nat.toDigits 10 n).reverse ++ marks.reverse).takeWhile Char.isDigit =
        (Nat.toDigits 10 n).reverse := by
      rw [List.takeWhile_append_of_pos hdigits, hstop.1, List.append_nil]
    have hdrop : ((Nat.toDigits 10 n).reverse ++ marks.reverse).dropWhile Char.isDigit =
        marks.reverse := by
      rw [List.dropWhile_append_of_pos hdigits, hstop.2]
    unfold readCount Count.written writtenLength
    rw [hback]
    split
    · next rest hrest =>
      have hn : 'n' ∈ (Nat.toDigits 10 n).reverse := by
        cases hrev : (Nat.toDigits 10 n).reverse with
        | nil => exact absurd (List.reverse_eq_nil_iff.mp hrev) Nat.toDigits_ne_nil
        | cons c cs =>
          rw [hrev] at hrest
          rw [(List.cons.inj hrest).1]
          exact List.mem_cons_self
      exact absurd (hdigits 'n' hn) (by decide)
    · rw [htake, hdrop, List.reverse_reverse, List.reverse_reverse]
      have hne : Nat.toDigits 10 n ≠ [] := Nat.toDigits_ne_nil
      have hlimit : 0 < n ∧ n ≤ Count.limit := h
      split
      · next hnil => exact absurd hnil hne
      · simp only [digitsValue_toDigits, hlimit, and_self, if_true]

theorem readRide_written {count : Count} (h : count.Canonical) (gait : Gait) (pattern : Pattern) :
    readRide clause (gait.marks ++ count.written) pattern [] = .ok (.ride count gait pattern) := by
  have hset : ∀ c ∈ ['~', '^'], c.isDigit = false ∧ c ∈ rideMarks :=
    List.all_iff_forall_prop.mp (by decide)
  have hdigit : ∀ c ∈ gait.marks, c.isDigit = false := fun c hc => (hset c (mem_gait_marks hc)).1
  have hmarks : ∀ c ∈ gait.marks ++ [], c ∈ rideMarks := by
    rw [List.append_nil]
    exact fun c hc => (hset c (mem_gait_marks hc)).2
  have hgait : (⟨gait.marks.contains '~', gait.marks.contains '^'⟩ : Gait) = gait := by
    obtain ⟨leaper, locust⟩ := gait
    cases leaper <;> cases locust <;> rfl
  refine readRide_eq_ok_iff.mpr ⟨count, gait.marks, readCount_written clause h hdigit, hmarks, ?_⟩
  rw [List.append_nil, hgait]

end Rides

section Patterns

variable (clause : List Char)

theorem foldlM_next_inner {cs : List Char} (h : ∀ c ∈ cs, isInner c = true) (done : List Pattern)
    (lead : List Char) (outer : List Opening) :
    cs.foldlM (Reader.next clause) ⟨⟨done, .text lead⟩, outer⟩ =
      .ok ⟨⟨done, .text (lead ++ cs)⟩, outer⟩ := by
  induction cs generalizing lead with
  | nil =>
    rw [List.append_nil]
    rfl
  | cons c cs ih =>
    obtain ⟨hc, hcs⟩ := List.forall_mem_cons.mp h
    have hnext : Reader.next clause ⟨⟨done, .text lead⟩, outer⟩ c =
        .ok ⟨⟨done, .text (lead ++ [c])⟩, outer⟩ := by
      unfold Reader.next
      split
      · exact absurd hc (by decide)
      · exact absurd hc (by decide)
      · exact absurd hc (by decide)
      · rfl
    rw [List.foldlM_cons, hnext]
    have hrest := ih hcs (lead ++ [c])
    rwa [List.append_assoc] at hrest

/--
What has been read of a sequence after a pattern that ends it: the parts before the last of the pattern,
and the last itself.
-/
theorem foldlM_next_written {p : Pattern} (hp : p.Canonical) (done : List Pattern)
    (outer : List Opening) :
    ∃ parts part last, p.written.foldlM (Reader.next clause) ⟨⟨done, .text []⟩, outer⟩ =
        .ok ⟨⟨parts ++ done, part⟩, outer⟩ ∧
      part.close clause = .ok last ∧ parts.foldl (fun rest q => .andThen q rest) last = p ∧
      (p.isSequence = false → parts = []) := by
  induction p generalizing done outer with
  | step s =>
    refine ⟨[], .text s.written, .step s, ?_, ?_, rfl, fun _ => rfl⟩
    · exact foldlM_next_inner clause (fun c hc => isInner_of_mem_step hc) done [] outer
    · have hne : s.written ≠ [] := marks_ne_nil hp
      unfold Part.close
      split
      · next hnil => exact absurd (Part.text.inj hnil) hne
      · next chars _ htext =>
        obtain rfl := Part.text.inj htext
        rw [readStep_written clause hp]
        rfl
      · next hgroup => cases hgroup
  | ride count gait pattern ih =>
    obtain ⟨hcount, hpattern⟩ := hp
    obtain ⟨parts, part, last, hread, hclose, hfold, -⟩ :=
      ih hpattern [] (⟨done, gait.marks ++ count.written⟩ :: outer)
    have hlead := foldlM_next_inner clause (fun c => isInner_of_mem_lead gait count) done [] outer
    rw [List.nil_append] at hlead
    have hlevel : (⟨parts ++ [], part⟩ : Level).close clause = .ok pattern := by
      rw [Level.close, hclose, List.append_nil]
      exact congrArg Except.ok hfold
    have hopen : Reader.next clause ⟨⟨done, .text (gait.marks ++ count.written)⟩, outer⟩ '(' =
        .ok ⟨⟨[], .text []⟩, ⟨done, gait.marks ++ count.written⟩ :: outer⟩ := rfl
    have hshut : Reader.next clause
        ⟨⟨parts ++ [], part⟩, ⟨done, gait.marks ++ count.written⟩ :: outer⟩ ')' =
          .ok ⟨⟨done, .group (gait.marks ++ count.written) pattern []⟩, outer⟩ := by
      simp only [Reader.next, hlevel]
      rfl
    refine ⟨[], .group (gait.marks ++ count.written) pattern [], .ride count gait pattern, ?_,
      readRide_written clause hcount gait pattern, rfl, fun _ => rfl⟩
    exact foldlM_append_ok hlead (foldlM_cons_ok hopen
      (foldlM_append_ok hread (foldlM_cons_ok hshut rfl)))
  | andThen first second ihFirst ihSecond =>
    obtain ⟨hsequence, hfirst, hsecond⟩ := hp
    obtain ⟨parts, part, last, hread, hclose, hfold, hsingle⟩ := ihFirst hfirst done outer
    obtain rfl := hsingle hsequence
    obtain rfl : last = first := hfold
    obtain ⟨parts', part', last', hread', hclose', hfold', -⟩ :=
      ihSecond hsecond (last :: done) outer
    have hdot : Reader.next clause ⟨⟨[] ++ done, part⟩, outer⟩ '.' =
        .ok ⟨⟨last :: done, .text []⟩, outer⟩ := by
      simp only [Reader.next, hclose]
      rfl
    refine ⟨parts' ++ [last], part', last', ?_, hclose', ?_, nofun⟩
    · rw [List.append_assoc, List.singleton_append]
      exact foldlM_append_ok hread (foldlM_cons_ok hdot hread')
    · rw [List.foldl_append, hfold']
      rfl

theorem readPattern_written {p : Pattern} (hp : p.Canonical) :
    readPattern p.written = .ok p := by
  obtain ⟨parts, part, last, hread, hclose, hfold, -⟩ := foldlM_next_written p.written hp [] []
  have hlevel : (⟨parts ++ [], part⟩ : Level).close p.written = .ok p := by
    rw [Level.close, hclose, List.append_nil]
    exact congrArg Except.ok hfold
  unfold readPattern
  rw [show ({} : Reader) = ⟨⟨[], .text []⟩, []⟩ from rfl, hread]
  exact hlevel

theorem mapM_readClause_written {ps : List Pattern} (h : ∀ p ∈ ps, p.Canonical) :
    ∃ clauses, (ps.map Pattern.written).mapM readClause = .ok clauses ∧
      clauses.map (·.pattern) = ps := by
  induction ps with
  | nil => exact ⟨[], rfl, rfl⟩
  | cons p ps ih =>
    obtain ⟨hp, hps⟩ := List.forall_mem_cons.mp h
    obtain ⟨clauses, hclauses, hpatterns⟩ := ih hps
    obtain ⟨clause, hclause, hpattern⟩ :
        ∃ clause, readClause p.written = .ok clause ∧ clause.pattern = p := by
      rw [readClause, readPattern_written hp]
      exact ⟨_, rfl, rfl⟩
    refine ⟨clause :: clauses, ?_, ?_⟩
    · rw [List.map_cons, List.mapM_cons, hclause, hclauses]
      rfl
    · rw [List.map_cons, hpattern, hpatterns]

end Patterns

/-- The written forms of patterns, separated by commas. -/
def Grammar.written (ps : List Pattern) : String :=
  String.ofList ([','].intercalate (ps.map Pattern.written))

/-- Grammars are read with canonical patterns, and every list of these is read from its written form. -/
theorem Grammar.read_canonical :
    (∀ source g, Grammar.read source = .ok g → ∀ c ∈ g.clauses, c.pattern.Canonical) ∧
    ∀ ps : List Pattern, ps ≠ [] → (∀ p ∈ ps, p.Canonical) →
      ∃ g, Grammar.read (Grammar.written ps) = .ok g ∧ g.clauses.map (·.pattern) = ps := by
  refine ⟨fun source g => Grammar.canonical_of_read, fun ps hne hps => ?_⟩
  have htokens : ∀ c ∈ [','].intercalate (ps.map Pattern.written), isToken c = true := by
    refine isToken_of_mem_intercalate fun text htext c hc => ?_
    obtain ⟨p, -, rfl⟩ := List.mem_map.mp htext
    exact (isToken_of_mem_written hc).1
  have hfields : fields ',' ([','].intercalate (ps.map Pattern.written)) =
      ps.map Pattern.written := by
    refine fields_intercalate ((List.map_eq_nil_iff.not.mpr hne)) fun text htext hcomma => ?_
    obtain ⟨p, -, rfl⟩ := List.mem_map.mp htext
    exact (isToken_of_mem_written hcomma).2 rfl
  have hkept : (ps.map Pattern.written).filter (!·.isEmpty) = ps.map Pattern.written := by
    rw [List.filter_eq_self]
    intro text htext
    obtain ⟨p, hp, rfl⟩ := List.mem_map.mp htext
    rw [List.isEmpty_eq_false_iff.mpr (written_ne_nil (hps p hp))]
    rfl
  obtain ⟨clauses, hclauses, hpatterns⟩ := mapM_readClause_written hps
  refine ⟨⟨Grammar.written ps, clauses⟩, ?_, hpatterns⟩
  rw [Grammar.written, Grammar.read_ofList htokens, hfields, hkept, hclauses]
  rfl

/-- A leaping ride of a strict pair and a second step, beside a plain step. -/
theorem Grammar.read_canonical_ride :
    let pair : Step :=
      { shape := .free, heading := .forward false, distance := .paired (.exact 1) (.exact 2) true }
    let turn : Step := { shape := .diagonal, lateral := .right, heading := .forward true,
                         distance := .single (.range 1 none), gait := ⟨false, true⟩ }
    let ps : List Pattern :=
      [.ride (.fixed 3) ⟨true, false⟩ (.andThen (.step pair) (.step turn)), .step pair]
    Grammar.written ps = "~3(1/2s>.1-nx>=r^),1/2s>" ∧
    ∃ g, Grammar.read (Grammar.written ps) = .ok g ∧ g.clauses.map (·.pattern) = ps := by
  intro pair turn ps
  have hpair : pair.Canonical := by
    refine ⟨⟨?_, ?_⟩, fun _ => rfl, fun _ => rfl⟩ <;> simp [Span.Canonical, maxLength]
  have hturn : turn.Canonical := by
    refine ⟨?_, nofun, nofun⟩
    simp [turn, Distance.Canonical, Span.Canonical, maxLength]
  have hps : ∀ p ∈ ps, p.Canonical := by
    refine List.forall_mem_cons.mpr ⟨⟨?_, rfl, hpair, hturn⟩, ?_⟩
    · simp [Count.Canonical, Count.limit]
    · exact List.forall_mem_singleton.mpr hpair
  exact ⟨by decide, Grammar.read_canonical.2 ps (List.cons_ne_nil _ _) hps⟩

end FairyChess
