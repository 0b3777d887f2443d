import Mathlib.Data.List.Forall2

/-!
# Converting a sequence piece by piece

`next` reads one piece from the front of a non-empty source and says what it becomes, or why there is none.
`Drains next source room out rest ending`: pieces are taken from `source` until it is empty (`done`), until `next` stops
(`stopped`), or until the next piece does not fit into what is left of `room` cells (`exhausted`).

- what is written fits (`Drains.length_le`) and the result is unique (`Drains.unique`);
- more room changes nothing once the room sufficed (`Drains.of_room`);
- **what an exhausted conversion left can be converted later** (`Drains.resume`);
- a source made of pieces that are read as such is drained (`drains_flatMap`).

`MatchesRow rows` describes sequences by the rows of a table of ranges, and `Splits` strings made of such sequences.
-/

namespace WebKit.Lib

variable {α β ρ : Type}

/-- How a conversion ends. -/
inductive Ending (ρ : Type)
  | done
  | stopped (reason : ρ)
  | exhausted
  deriving DecidableEq

inductive Drains (next : List α → Except ρ (List β × List α)) :
    List α → Nat → List β → List α → Ending ρ → Prop
  | done (room : Nat) : Drains next [] room [] [] .done
  | stop {source : List α} {room : Nat} {reason : ρ} : source ≠ [] → next source = .error reason →
      Drains next source room [] source (.stopped reason)
  | exhaust {source rest : List α} {room : Nat} {piece : List β} : source ≠ [] → next source = .ok (piece, rest) →
      room < piece.length → Drains next source room [] source .exhausted
  | step {source rest left : List α} {room : Nat} {piece out : List β} {ending : Ending ρ} : source ≠ [] →
      next source = .ok (piece, rest) → piece.length ≤ room → Drains next rest (room - piece.length) out left ending →
      Drains next source room (piece ++ out) left ending

variable {next : List α → Except ρ (List β × List α)} {source rest : List α} {room : Nat} {out : List β}
  {ending : Ending ρ}

theorem Drains.length_le (h : Drains next source room out rest ending) : out.length ≤ room := by
  induction h with
  | done => exact Nat.zero_le _
  | stop => exact Nat.zero_le _
  | exhaust => exact Nat.zero_le _
  | step _ _ hfits _ ih =>
    rw [List.length_append]
    omega

theorem Drains.rest_of_done (h : Drains next source room out rest ending) (hending : ending = .done) : rest = [] := by
  induction h with
  | done => rfl
  | stop => cases hending
  | exhaust => cases hending
  | step _ _ _ _ ih => exact ih hending

theorem Drains.unique (h : Drains next source room out rest ending) {out' : List β} {rest' : List α}
    {ending' : Ending ρ} (h' : Drains next source room out' rest' ending') :
    out' = out ∧ rest' = rest ∧ ending' = ending := by
  induction h generalizing out' rest' ending' with
  | done =>
    cases h' with
    | done => exact ⟨rfl, rfl, rfl⟩
    | stop hne => exact absurd rfl hne
    | exhaust hne => exact absurd rfl hne
    | step hne => exact absurd rfl hne
  | stop hne hnext =>
    cases h' with
    | done => exact absurd rfl hne
    | stop _ hnext' =>
      cases hnext.symm.trans hnext'
      exact ⟨rfl, rfl, rfl⟩
    | exhaust _ hnext' => cases hnext.symm.trans hnext'
    | step _ hnext' => cases hnext.symm.trans hnext'
  | exhaust hne hnext hfull =>
    cases h' with
    | done => exact absurd rfl hne
    | stop _ hnext' => cases hnext.symm.trans hnext'
    | exhaust => exact ⟨rfl, rfl, rfl⟩
    | step _ hnext' hfits =>
      cases hnext.symm.trans hnext'
      exact absurd hfits (Nat.not_le.2 hfull)
  | step hne hnext hfits _ ih =>
    cases h' with
    | done => exact absurd rfl hne
    | stop _ hnext' => cases hnext.symm.trans hnext'
    | exhaust _ hnext' hfull =>
      cases hnext.symm.trans hnext'
      exact absurd hfits (Nat.not_le.2 hfull)
    | step _ hnext' _ h' =>
      cases hnext.symm.trans hnext'
      obtain ⟨rfl, rfl, rfl⟩ := ih h'
      exact ⟨rfl, rfl, rfl⟩

theorem Drains.of_room (h : Drains next source room out rest ending) (hending : ending ≠ .exhausted) {room' : Nat}
    (hroom : room ≤ room') : Drains next source room' out rest ending := by
  induction h generalizing room' with
  | done => exact .done _
  | stop hne hnext => exact .stop hne hnext
  | exhaust => exact absurd rfl hending
  | step hne hnext hfits _ ih => exact .step hne hnext (by omega) (ih hending (by omega))

/-- **An exhausted conversion can be continued**: with the cells of a second target behind the ones written to the
first, the whole is one conversion. -/
theorem Drains.resume (h : Drains next source room out rest .exhausted) {room' : Nat} {out' : List β} {rest' : List α}
    {ending' : Ending ρ} (h' : Drains next rest room' out' rest' ending') :
    Drains next source (out.length + room') (out ++ out') rest' ending' := by
  generalize he : Ending.exhausted = ending at h
  induction h with
  | done => cases he
  | stop => cases he
  | exhaust => simpa using h'
  | step hne hnext hfits _ ih =>
    rw [List.length_append, List.append_assoc, Nat.add_assoc]
    refine .step hne hnext (Nat.le_add_right _ _) ?_
    rw [Nat.add_sub_cancel_left]
    exact ih h' he

theorem Drains.not_exhausted {k : Nat}
    (hnext : ∀ source piece rest, next source = .ok (piece, rest) →
      piece.length + k * rest.length ≤ k * source.length)
    (h : Drains next source room out rest ending) (hroom : k * source.length ≤ room) : ending ≠ .exhausted := by
  induction h with
  | done => rintro ⟨⟩
  | stop => rintro ⟨⟩
  | exhaust _ hstep hfull =>
    have := hnext _ _ _ hstep
    omega
  | step _ hstep _ _ ih =>
    have := hnext _ _ _ hstep
    exact ih (by omega)

theorem Drains.pieces {P : List α → List β → Prop}
    (hnext : ∀ source piece rest, next source = .ok (piece, rest) → ∃ front, source = front ++ rest ∧ P front piece)
    (h : Drains next source room out rest ending) :
    ∃ pieces : List (List α × List β), source = (pieces.map Prod.fst).flatten ++ rest ∧
      out = (pieces.map Prod.snd).flatten ∧ ∀ p ∈ pieces, P p.1 p.2 := by
  induction h with
  | done => exact ⟨[], by simp⟩
  | stop => exact ⟨[], by simp⟩
  | exhaust => exact ⟨[], by simp⟩
  | @step _ _ _ _ piece _ _ _ hstep _ _ ih =>
    obtain ⟨front, rfl, hfront⟩ := hnext _ _ _ hstep
    obtain ⟨pieces, rfl, rfl, hpieces⟩ := ih
    refine ⟨(front, piece) :: pieces, by simp, by simp, ?_⟩
    rintro p (_ | ⟨_, hp⟩)
    · exact hfront
    · exact hpieces p hp

theorem drains_flatMap {γ : Type} {f : γ → List α} {g : γ → List β} {cs : List γ} (hne : ∀ c ∈ cs, f c ≠ [])
    (hnext : ∀ c ∈ cs, ∀ rest, next (f c ++ rest) = .ok (g c, rest)) (hroom : (cs.flatMap g).length ≤ room) :
    Drains next (cs.flatMap f) room (cs.flatMap g) [] .done := by
  induction cs generalizing room with
  | nil => exact .done room
  | cons c cs ih =>
    rw [List.flatMap_cons, List.length_append] at hroom
    rw [List.flatMap_cons, List.flatMap_cons]
    refine .step (by simp [hne c List.mem_cons_self]) (hnext c List.mem_cons_self _) (by omega) ?_
    exact ih (fun c hc => hne c (List.mem_cons_of_mem _ hc)) (fun c hc => hnext c (List.mem_cons_of_mem _ hc)) (by omega)

/-! ## Tables of ranges -/

variable [LE α]

/-- A sequence has an element in each of the ranges of one row of the table. -/
def MatchesRow (rows : List (List (α × α))) (sequence : List α) : Prop :=
  ∃ row ∈ rows, List.Forall₂ (fun range x => range.1 ≤ x ∧ x ≤ range.2) row sequence

/-- A string is put together from sequences of the table. -/
def Splits (rows : List (List (α × α))) (string : List α) : Prop :=
  ∃ sequences : List (List α), string = sequences.flatten ∧ ∀ sequence ∈ sequences, MatchesRow rows sequence

end WebKit.Lib
