import FairyChess.Proofs.Movement.Notation
import FairyChess.Proofs.Reading

/-! Whatever is read as a movement grammar has canonical patterns only. -/
namespace FairyChess
open Movement

section Steps

theorem le_maxLength_of_readLength {span cs : List Char} {n : Option ℕ}
    (h : readLength span cs = .ok n) : ∀ k ∈ n, k ≤ maxLength := by
  unfold readLength at h
  split at h
  · obtain rfl := Except.ok.inj h
    simp
  · split at h
    · next k hread =>
      obtain rfl := Except.ok.inj h
      have hk := (Option.filter_eq_some_iff.mp hread).2
      rintro n ⟨⟩
      simpa using hk
    · cases h

theorem canonical_of_readSpan {cs : List Char} {span : Span} (h : readSpan cs = .ok span) :
    span.Canonical := by
  unfold readSpan at h
  split at h
  · obtain ⟨n, hn, h⟩ := of_bind_eq_ok h
    have hlength := le_maxLength_of_readLength hn
    cases n with
    | none =>
      obtain rfl := Except.ok.inj h
      trivial
    | some n =>
      obtain rfl := Except.ok.inj h
      exact hlength n rfl
  · next upper _ =>
    obtain ⟨lo, hlo, h⟩ := of_bind_eq_ok h
    obtain ⟨hi, hhi, h⟩ := of_bind_eq_ok h
    split at h
    · cases h
    next hcross =>
    obtain rfl := Except.ok.inj h
    have hupper := le_maxLength_of_readLength hhi
    cases hi with
    | none =>
      cases lo with
      | none => exact (by decide : 1 ≤ maxLength)
      | some lo => exact le_maxLength_of_readLength hlo lo rfl
    | some hi =>
      have hle : lo.getD 1 ≤ hi := by simpa using hcross
      exact ⟨hle, hupper hi rfl⟩

theorem canonical_of_readDistance {text marks : List Char} {d : Distance}
    (h : readDistance text = .ok (d, marks)) : d.Canonical := by
  unfold readDistance at h
  split at h
  · obtain ⟨first, hfirst, h⟩ := of_bind_eq_ok h
    obtain ⟨second, hsecond, h⟩ := of_bind_eq_ok h
    obtain ⟨rfl, -⟩ := Prod.mk.inj (Except.ok.inj h)
    exact ⟨canonical_of_readSpan hfirst, canonical_of_readSpan hsecond⟩
  · split at h
    · obtain ⟨span, hspan, h⟩ := of_bind_eq_ok h
      obtain ⟨rfl, -⟩ := Prod.mk.inj (Except.ok.inj h)
      exact canonical_of_readSpan hspan
    · obtain ⟨rfl, -⟩ := Prod.mk.inj (Except.ok.inj h)
      trivial

/-- Only a step without a shape of its own is free. -/
theorem isPaired_of_readShape {clause marks : List Char} {d : Distance}
    (h : readShape clause marks d = .ok .free) : d.isPaired = true := by
  unfold readShape at h
  split at h
  · cases d with
    | paired first second strict => rfl
    | unbounded => cases h
    | single span => cases h
  · next shape shapes hshapes =>
    split at h
    · obtain rfl := Except.ok.inj h
      have hmem : Shape.free ∈ marks.filterMap shapeMark? := hshapes ▸ List.mem_cons_self
      obtain ⟨c, -, hc⟩ := List.mem_filterMap.mp hmem
      unfold shapeMark? at hc
      split at hc <;> cases hc
    · cases h

/-- A mark for a side lets a heading forward or backward go sideways. -/
theorem readLateral_of_readHeading {marks : List Char}
    (h : readHeading marks = .forward false ∨ readHeading marks = .backward false) :
    readLateral marks = .any := by
  unfold readHeading at h
  unfold readLateral
  cases hright : marks.contains 'r' <;> cases hleft : marks.contains 'l' <;>
    cases hahead : marks.contains '>' <;> cases hback : marks.contains '<' <;>
      cases hlevel : marks.contains '=' <;> simp_all

theorem canonical_of_readStep {clause text : List Char} {s : Step}
    (h : readStep clause text = .ok s) : s.Canonical := by
  obtain ⟨⟨d, marks⟩, hdistance, h⟩ := of_bind_eq_ok h
  dsimp only at h
  split at h
  · cases h
  · obtain ⟨shape, hshape, h⟩ := of_bind_eq_ok h
    obtain rfl := Except.ok.inj h
    refine ⟨canonical_of_readDistance hdistance, ?_, readLateral_of_readHeading⟩
    rintro rfl
    exact isPaired_of_readShape hshape

theorem canonical_of_readCount {clause lead before : List Char} {count : Count}
    (h : readCount clause lead = .ok (count, before)) : count.Canonical := by
  unfold readCount at h
  split at h
  · obtain ⟨rfl, -⟩ := Prod.mk.inj (Except.ok.inj h)
    trivial
  · split at h
    · obtain ⟨rfl, -⟩ := Prod.mk.inj (Except.ok.inj h)
      exact (by decide : 0 < 1 ∧ 1 ≤ Count.limit)
    · dsimp only at h
      split at h
      · next hlimit =>
        obtain ⟨rfl, -⟩ := Prod.mk.inj (Except.ok.inj h)
        exact hlimit
      · cases h

end Steps

/-- A pattern that can be one part of a sequence. -/
def Pattern.IsPart (p : Pattern) : Prop :=
  p.isSequence = false ∧ p.Canonical

namespace Movement

variable {clause : List Char}

def Part.Canonical : Part → Prop
  | .text _ => True
  | .group _ pattern _ => pattern.Canonical

structure Level.Canonical (level : Level) : Prop where
  done : ∀ p ∈ level.done, p.IsPart
  part : level.part.Canonical

structure Reader.Canonical (r : Reader) : Prop where
  level : r.level.Canonical
  outer : ∀ opening ∈ r.outer, ∀ p ∈ opening.done, p.IsPart

/-- A ride is read if its count is, and if only a ride's marks stand beside the group. -/
theorem readRide_eq_ok_iff {lead trail : List Char} {pattern p : Pattern} :
    readRide clause lead pattern trail = .ok p ↔
      ∃ count before, readCount clause lead = .ok (count, before) ∧
        (∀ c ∈ before ++ trail, c ∈ rideMarks) ∧
        p = .ride count
          ⟨(before ++ trail).contains '~', (before ++ trail).contains '^'⟩ pattern := by
  unfold readRide
  constructor
  · intro h
    obtain ⟨⟨count, before⟩, hcount, h⟩ := of_bind_eq_ok h
    dsimp only at h
    split at h
    · cases h
    · next hfind =>
      refine ⟨count, before, hcount, fun c hc => ?_, (Except.ok.inj h).symm⟩
      simpa using List.find?_eq_none.mp hfind c hc
  · rintro ⟨count, before, hcount, hmarks, rfl⟩
    have hfind : (before ++ trail).find? (!rideMarks.contains ·) = none := by
      rw [List.find?_eq_none]
      intro c hc
      simpa using hmarks c hc
    rw [hcount, ok_bind]
    dsimp only
    rw [hfind]

theorem Part.Canonical.close {part : Part} (hpart : part.Canonical) {p : Pattern}
    (h : part.close clause = .ok p) : p.IsPart := by
  unfold Part.close at h
  split at h
  · cases h
  · obtain ⟨s, hs, rfl⟩ := of_map_eq_ok h
    exact ⟨rfl, canonical_of_readStep hs⟩
  · obtain ⟨count, before, hcount, -, rfl⟩ := readRide_eq_ok_iff.mp h
    exact ⟨rfl, canonical_of_readCount hcount, hpart⟩

theorem canonical_foldl {done : List Pattern} (hdone : ∀ p ∈ done, p.IsPart) {last : Pattern}
    (hlast : last.Canonical) : (done.foldl (fun rest p => .andThen p rest) last).Canonical := by
  induction done generalizing last with
  | nil => exact hlast
  | cons p done ih =>
    obtain ⟨⟨hpart, hp⟩, hdone⟩ := List.forall_mem_cons.mp hdone
    exact ih hdone ⟨hpart, hp, hlast⟩

theorem Level.Canonical.close {level : Level} (hlevel : level.Canonical) {p : Pattern}
    (h : level.close clause = .ok p) : p.Canonical := by
  obtain ⟨last, hlast, h⟩ := of_bind_eq_ok h
  obtain rfl := Except.ok.inj h
  exact canonical_foldl hlevel.done (hlevel.part.close hlast).2

theorem Opening.canonical_resume {opening : Opening} (hopening : ∀ p ∈ opening.done, p.IsPart)
    {p : Pattern} (hp : p.Canonical) : (opening.resume p).Canonical :=
  ⟨hopening, hp⟩

/-- Each character keeps what is read so far canonical. -/
theorem Reader.Canonical.next {r r' : Reader} (hr : r.Canonical) {c : Char}
    (h : r.next clause c = .ok r') : r'.Canonical := by
  obtain ⟨⟨done, part⟩, outer⟩ := r
  obtain ⟨⟨hdone, hpart⟩, houter⟩ := hr
  unfold Reader.next at h
  split at h
  · obtain ⟨p, hp, h⟩ := of_bind_eq_ok h
    obtain rfl := Except.ok.inj h
    exact ⟨⟨List.forall_mem_cons.mpr ⟨hpart.close hp, hdone⟩, trivial⟩, houter⟩
  · cases part with
    | text lead =>
      obtain rfl := Except.ok.inj h
      exact ⟨⟨nofun, trivial⟩, List.forall_mem_cons.mpr ⟨hdone, houter⟩⟩
    | group => cases h
  · cases outer with
    | nil =>
      cases part with
      | text lead =>
        obtain rfl := Except.ok.inj h
        exact ⟨⟨hdone, hpart⟩, houter⟩
      | group lead pattern trail =>
        obtain ⟨p, hp, h⟩ := of_bind_eq_ok h
        cases h
    | cons opening outer =>
      obtain ⟨p, hp, h⟩ := of_bind_eq_ok h
      obtain rfl := Except.ok.inj h
      have hp : p.Canonical := Level.Canonical.close ⟨hdone, hpart⟩ hp
      obtain ⟨hopening, houter⟩ := List.forall_mem_cons.mp houter
      exact ⟨Opening.canonical_resume hopening hp, houter⟩
  · obtain rfl := Except.ok.inj h
    cases part with
    | text lead => exact ⟨⟨hdone, trivial⟩, houter⟩
    | group lead pattern trail => exact ⟨⟨hdone, hpart⟩, houter⟩

theorem Reader.Canonical.foldlM {r r' : Reader} (hr : r.Canonical) {cs : List Char}
    (h : cs.foldlM (Reader.next clause) r = .ok r') : r'.Canonical := by
  induction cs generalizing r with
  | nil =>
    obtain rfl := Except.ok.inj h
    exact hr
  | cons c cs ih =>
    rw [List.foldlM_cons] at h
    obtain ⟨s, hs, h⟩ := of_bind_eq_ok h
    exact ih (hr.next hs) h

theorem Level.Canonical.finish {level : Level} (hlevel : level.Canonical) {outer : List Opening}
    (houter : ∀ opening ∈ outer, ∀ p ∈ opening.done, p.IsPart) {p : Pattern}
    (h : level.finish clause outer = .ok p) : p.Canonical := by
  induction outer generalizing level with
  | nil => exact hlevel.close h
  | cons opening outer ih =>
    obtain ⟨q, hq, h⟩ := of_bind_eq_ok h
    obtain ⟨hopening, houter⟩ := List.forall_mem_cons.mp houter
    exact ih (Opening.canonical_resume hopening (hlevel.close hq)) houter h

theorem canonical_of_readPattern {p : Pattern} (h : readPattern clause = .ok p) : p.Canonical := by
  obtain ⟨r, hr, h⟩ := of_bind_eq_ok h
  have hstart : Reader.Canonical {} := ⟨⟨nofun, trivial⟩, nofun⟩
  have hread := hstart.foldlM hr
  exact hread.level.finish hread.outer h

end Movement

theorem Grammar.canonical_of_read {source : String} {g : Grammar} (h : Grammar.read source = .ok g) :
    ∀ c ∈ g.clauses, c.pattern.Canonical := by
  intro c hc
  unfold Grammar.read at h
  dsimp only at h
  split at h
  · cases h
  · split at h
    · cases h
    · obtain ⟨clauses, hclauses, h⟩ := of_bind_eq_ok h
      obtain rfl := Except.ok.inj h
      obtain ⟨text, -, htext⟩ := exists_of_mem_mapM hclauses hc
      obtain ⟨p, hp, hclause⟩ := of_bind_eq_ok htext
      obtain rfl := Except.ok.inj hclause
      exact canonical_of_readPattern hp

end FairyChess
