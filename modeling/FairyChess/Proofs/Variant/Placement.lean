import FairyChess.Proofs.Position.WellFormed
import FairyChess.Proofs.Variant.Description
import FairyChess.Proofs.Variant.Ranks

/-! Starting positions are regular, and so is every position that is reached from one. -/
namespace FairyChess

private theorem exists_of_isOk {ε α : Type} {x : Except ε α} (h : x.isOk = true) :
    ∃ a, x = .ok a := by
  cases x with
  | error e => cases h
  | ok a => exact ⟨a, rfl⟩

namespace Setup

variable {s : Setup} {row : ℕ}

/-- A piece that is read in a rank, no nearer to the left edge than `file`. -/
def Reads (s : Setup) (row file : ℕ) (q : Piece) : Prop :=
  ∃ (t : Template) (side : Side) (i : ℕ), file ≤ i ∧ i < s.bounds.files ∧
    q = t.spawn ⟨s.bounds.left + i, s.bounds.top - 1 - row⟩ side s.bounds

theorem Reads.mono {file file' : ℕ} {q : Piece} (h : s.Reads row file q) (hfile : file' ≤ file) :
    s.Reads row file' q := by
  obtain ⟨t, side, i, hi, hlt, rfl⟩ := h
  exact ⟨t, side, i, hfile.trans hi, hlt, rfl⟩

/-- The pieces of what is left of a rank stand on different files, none before the files that are covered. -/
theorem reads_rankPiecesAfter {file run : ℕ} {cs : List Char}
    (hfiles : file + Rank.widthAfter run cs = s.bounds.files) :
    (∀ q ∈ s.rankPiecesAfter row file run cs, s.Reads row (file + run) q) ∧
      ((s.rankPiecesAfter row file run cs).map (·.square)).Nodup := by
  induction cs generalizing file run with
  | nil => simp [rankPiecesAfter]
  | cons c cs ih =>
    rw [Rank.widthAfter] at hfiles
    rw [rankPiecesAfter_cons]
    split
    · next hdigit =>
      rw [if_pos hdigit] at hfiles
      obtain ⟨hreads, hnodup⟩ := ih hfiles
      exact ⟨fun q hq => (hreads q hq).mono (by omega), hnodup⟩
    · next hdigit =>
      rw [if_neg hdigit] at hfiles
      obtain ⟨hreads, hnodup⟩ := @ih (file + run + 1) 0 (by omega)
      cases hfind : s.table.find? c with
      | none =>
        rw [pieceAt?, if_neg hdigit, hfind]
        exact ⟨fun q hq => (hreads q hq).mono (by omega), hnodup⟩
      | some x =>
        obtain ⟨t, side⟩ := x
        rw [pieceAt?, if_neg hdigit, hfind]
        refine ⟨List.forall_mem_cons.mpr ⟨⟨t, side, file + run, le_rfl, by omega, rfl⟩,
          fun q hq => (hreads q hq).mono (by omega)⟩, List.nodup_cons.mpr ⟨fun hmem => ?_, hnodup⟩⟩
        obtain ⟨q, hq, hsquare⟩ := List.mem_map.mp hmem
        obtain ⟨t', side', i, hi, -, rfl⟩ := hreads q hq
        have hequal := congrArg Square.file hsquare
        simp only [Template.spawn] at hequal
        omega

theorem CompleteRank.reads {cs : List Char} (h : s.CompleteRank cs) :
    (∀ q ∈ s.rankPieces row cs, s.Reads row 0 q) ∧ ((s.rankPieces row cs).map (·.square)).Nodup := by
  rw [rankPieces_eq]
  refine reads_rankPiecesAfter ?_
  rw [Nat.zero_add, ← Rank.width_eq, h.width_eq]

theorem reads_ranks {rows : List (List Char)} (h : ∀ cs ∈ rows, s.CompleteRank cs) :
    (∀ q ∈ (rows.zipIdx row).flatMap fun (cs, i) => s.rankPieces i cs,
      ∃ i, row ≤ i ∧ i < row + rows.length ∧ s.Reads i 0 q) ∧
      (((rows.zipIdx row).flatMap fun (cs, i) => s.rankPieces i cs).map (·.square)).Nodup := by
  induction rows generalizing row with
  | nil => simp
  | cons cs rest ih =>
    obtain ⟨hfirst, hrest⟩ := List.forall_mem_cons.mp h
    obtain ⟨hfrontReads, hfrontNodup⟩ := @hfirst.reads _ row
    obtain ⟨hbackReads, hbackNodup⟩ := @ih (row + 1) hrest
    rw [List.length_cons, List.zipIdx_cons, List.flatMap_cons]
    refine ⟨fun q hq => ?_, ?_⟩
    · rcases List.mem_append.mp hq with hq | hq
      · exact ⟨row, le_rfl, by omega, hfrontReads q hq⟩
      · obtain ⟨i, hi, hlt, hreads⟩ := hbackReads q hq
        exact ⟨i, by omega, by omega, hreads⟩
    · rw [List.map_append]
      refine List.nodup_append'.mpr ⟨hfrontNodup, hbackNodup, fun square hf hb => ?_⟩
      obtain ⟨q, hq, rfl⟩ := List.mem_map.mp hf
      obtain ⟨r, hr, hsquare⟩ := List.mem_map.mp hb
      obtain ⟨t, side, j, -, -, rfl⟩ := hfrontReads q hq
      obtain ⟨i, hi, -, t', side', k, -, -, rfl⟩ := hbackReads r hr
      have hequal := congrArg Square.rank hsquare
      simp only [Template.spawn] at hequal
      omega

/-- A placement adds new pieces to an empty board, each on a square of its own. -/
theorem of_readPlacement {text : List Char} {p : Position} (h : s.readPlacement text = .ok p) :
    ∃ qs : List Piece, p = qs.foldl Position.add { bounds := s.bounds } ∧
      (qs.map (·.square)).Nodup ∧
      ∀ q ∈ qs, ∃ (t : Template) (side : Side), q.square ∈ s.bounds ∧
        q = t.spawn q.square side s.bounds := by
  obtain ⟨hcomplete, hp⟩ := readPlacement_eq_ok_iff.mp h
  obtain ⟨hreads, hnodup⟩ := @reads_ranks s 0 _ hcomplete.rank
  refine ⟨s.placed text, hp, hnodup, fun q hq => ?_⟩
  obtain ⟨i, -, hi, t, side, j, -, hj, rfl⟩ := hreads q hq
  refine ⟨t, side, ?_, rfl⟩
  rw [hcomplete.ranks] at hi
  simp only [Bounds.files, Bounds.ranks] at hi hj
  change (_ ∧ _) ∧ _ ∧ _
  simp only [Template.spawn]
  omega

/-- Pieces that are read in different ranks, or in one, make a regular position. -/
theorem regular_of_readPlacement {text : List Char} {p : Position}
    (h : s.readPlacement text = .ok p) : p.bounds = s.bounds ∧ p.Regular := by
  obtain ⟨qs, rfl, hnodup, hqs⟩ := of_readPlacement h
  refine ⟨Position.bounds_foldl_add .., Position.regular_foldl_add (fun q hq => ?_) (fun q hq => ?_)
    (fun q hq => ?_) hnodup⟩
  · obtain ⟨t, side, -, hspawn⟩ := hqs q hq
    rw [hspawn]
    rfl
  · obtain ⟨t, side, hmem, -⟩ := hqs q hq
    exact hmem
  · obtain ⟨t, side, -, hspawn⟩ := hqs q hq
    rw [hspawn]
    cases side
    · exact .inl rfl
    · exact .inr rfl

/-- A piece of a placement is new, and on the board. -/
theorem spawned_of_readPlacement {text : List Char} {p : Position}
    (h : s.readPlacement text = .ok p) {id : PieceId} {q : Piece} (hq : p.piece? id = some q) :
    ∃ t : Template, q.square ∈ s.bounds ∧ q = t.spawn q.square id.side s.bounds := by
  obtain ⟨qs, rfl, -, hqs⟩ := of_readPlacement h
  obtain ⟨hmem, hside⟩ := Position.mem_of_piece?_foldl_add hq
  obtain ⟨t, side, hsquare, hspawn⟩ := hqs q hmem
  have hsame : side = id.side := by
    rw [← hside, hspawn]
    cases side <;> rfl
  exact ⟨t, hsquare, hsame ▸ hspawn⟩

end Setup

namespace Variant

variable {source : String} {v : Variant}

theorem of_read (h : Variant.read source = .ok v) :
    ∃ (s : Setup) (text : List Char), s.bounds = v.bounds ∧ s.readPlacement text = .ok v.position := by
  obtain ⟨front, table, placement, rest, -, -, hposition⟩ := exists_front_of_read h
  exact ⟨_, _, rfl, hposition⟩

theorem regular_of_read (h : Variant.read source = .ok v) :
    v.position.bounds = v.bounds ∧ v.position.Regular := by
  obtain ⟨s, text, hbounds, hposition⟩ := of_read h
  rw [← hbounds]
  exact Setup.regular_of_readPlacement hposition

theorem spawned_of_read (h : Variant.read source = .ok v) {id : PieceId} {q : Piece}
    (hq : v.position.piece? id = some q) :
    ∃ t : Template, q.square ∈ v.bounds ∧ q = t.spawn q.square id.side v.bounds := by
  obtain ⟨s, text, hbounds, hposition⟩ := of_read h
  rw [← hbounds]
  exact Setup.spawned_of_readPlacement hposition hq

end Variant

/--
Whatever is made and taken back from the starting position of a variant, the board and the number of
pieces stay the same and the position stays regular.
-/
theorem Variant.regular_run {source : String} {v : Variant} (h : Variant.read source = .ok v)
    (actions : List Action) :
    let p := (Line.run ⟨v.position, []⟩ actions).position
    p.bounds = v.bounds ∧ (∀ side, (p.pieces side).length = (v.position.pieces side).length) ∧
      p.Regular := by
  obtain ⟨hbounds, hregular⟩ := Variant.regular_of_read h
  have hstands : Line.Stands v.position (Line.run ⟨v.position, []⟩ actions) :=
    Line.Stands.start.run actions
  exact ⟨hstands.bounds.trans hbounds, hstands.length_pieces, hstands.regular hregular⟩

theorem Variant.regular_run_castled :
    ∃ v, Variant.read "Duel\n5,3,0,0\n2\nKing,K,k,1000,k1*\nRook,R,r,5,n+\nk4/5/R3K" = .ok v ∧
      let p := (Line.run ⟨v.position, []⟩ [.make ⟨.white, 1⟩ ⟨2, 0⟩ none,
        .forceCapture ⟨.black, 0⟩ ⟨.white, 0⟩ none, .undo]).position
      p.bounds = v.bounds ∧ (∀ side, (p.pieces side).length = (v.position.pieces side).length) ∧
        p.Regular :=
  (exists_of_isOk (by decide +kernel)).imp fun _ hv => ⟨hv, Variant.regular_run hv _⟩

end FairyChess
