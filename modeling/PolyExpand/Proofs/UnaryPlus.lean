import PolyExpand.Proofs.Interpretation

/-!
# Unary plus — what is kept of a group

Resolution leaves out a `+` if the nearest piece before it that is kept awaits an
operand, and carries a flag along the sequence to know that. Seen from a group, the
flag is one look back: its members are put down one by one, and a `+` is left out if
what was put down last is a `-` or a `*` (`keep`, `withoutUnaryPlus`).

> `dropUnaryPlus_piecesWith`: what is kept of a group is what resolution keeps of its
> pieces.

Members are kept or left out in the order in which they come, so a group may be
continued at any place: what has been kept decides about the rest
(`dropUnaryPlus_piecesWith_append`).
-/

namespace PolyExpand.Node

variable {α : Type}

/-- Whether a node is an operator that only an operand may follow. -/
def awaitsOperand : Node → Bool
  | marker .minus | marker .times => true
  | _ => false

/-- Puts a node behind those that have been kept, unless it is a `+` and the last of
them is a `-` or a `*`. -/
def keep (kept : List Node) (c : Node) : List Node :=
  if c = marker .plus ∧ kept.getLast?.any awaitsOperand = true then kept else kept ++ [c]

/-- The members of a group that are no unary `+`. -/
def withoutUnaryPlus (cs : List Node) : List Node := cs.foldl keep []

theorem awaitsOperand_piece (c : Node) (f : Node → α) :
    (c.piece.map f).awaitsOperand = c.awaitsOperand := by
  cases c with
  | marker m => cases m <;> rfl
  | _ => rfl

/-- What a member that is no `+` does to the flag. -/
theorem dropUnaryPlusFrom_piece {c : Node} (h : c ≠ marker .plus) (f : Node → α)
    (awaiting : Bool) (ps : List (Piece α)) :
    dropUnaryPlusFrom awaiting (c.piece.map f :: ps) =
      c.piece.map f :: dropUnaryPlusFrom c.awaitsOperand ps := by
  cases c with
  | marker m =>
    cases m with
    | plus => exact absurd rfl h
    | minus | times => rfl
  | _ => rfl

/-- The flag is what a look back would say. -/
theorem piecesWith_foldl_keep (f : Node → α) (cs : List Node) : ∀ kept : List Node,
    piecesWith f (cs.foldl keep kept) = piecesWith f kept ++
      dropUnaryPlusFrom (kept.getLast?.any awaitsOperand) (piecesWith f cs) := by
  induction cs with
  | nil =>
    intro kept
    exact (List.append_nil _).symm
  | cons c cs ih =>
    intro kept
    rw [List.foldl_cons, ih]
    have hlast : (kept ++ [c]).getLast?.any awaitsOperand = c.awaitsOperand := by
      rw [List.getLast?_concat]
      rfl
    have hkept : piecesWith f (kept ++ [c]) = piecesWith f kept ++ [c.piece.map f] :=
      piecesWith_append f kept [c]
    have hcons : piecesWith f (c :: cs) = c.piece.map f :: piecesWith f cs := rfl
    by_cases hplus : c = marker .plus
    · subst hplus
      cases hawaiting : kept.getLast?.any awaitsOperand with
      | true =>
        have hkeep : keep kept (marker .plus) = kept := if_pos ⟨rfl, hawaiting⟩
        rw [hkeep, hawaiting]
        rfl
      | false =>
        have hkeep : keep kept (marker .plus) = kept ++ [marker .plus] :=
          if_neg (by simp [hawaiting])
        rw [hkeep, hlast, hkept, List.append_assoc]
        rfl
    · have hkeep : keep kept c = kept ++ [c] := if_neg fun h => hplus h.1
      rw [hkeep, hlast, hkept, hcons, dropUnaryPlusFrom_piece hplus, List.append_assoc]
      rfl

/-- **What is kept** of a group is what resolution keeps of its pieces. -/
theorem dropUnaryPlus_piecesWith (f : Node → α) (cs : List Node) :
    dropUnaryPlus (piecesWith f cs) = piecesWith f (withoutUnaryPlus cs) :=
  (piecesWith_foldl_keep f cs []).symm

/-- Of a part that comes first, the rest sees what was kept last. -/
theorem dropUnaryPlus_piecesWith_append (f : Node → α) (as bs : List Node) :
    dropUnaryPlus (piecesWith f (as ++ bs)) = dropUnaryPlus (piecesWith f as) ++
      dropUnaryPlusFrom ((withoutUnaryPlus as).getLast?.any awaitsOperand) (piecesWith f bs) := by
  have hfoldl : withoutUnaryPlus (as ++ bs) = bs.foldl keep (withoutUnaryPlus as) :=
    List.foldl_append
  rw [dropUnaryPlus_piecesWith, dropUnaryPlus_piecesWith, hfoldl, piecesWith_foldl_keep]

theorem foldl_keep_sublist (cs : List Node) : ∀ kept : List Node,
    (cs.foldl keep kept).Sublist (kept ++ cs) := by
  induction cs with
  | nil =>
    intro kept
    rw [List.append_nil]
    exact List.Sublist.refl kept
  | cons c cs ih =>
    intro kept
    refine (ih (keep kept c)).trans ?_
    unfold keep
    split
    next => exact (List.Sublist.refl kept).append (List.sublist_cons_self c cs)
    next =>
      rw [List.append_assoc]
      exact List.Sublist.refl _

/-- Leaving out signs changes nothing else. -/
theorem withoutUnaryPlus_sublist (cs : List Node) : (withoutUnaryPlus cs).Sublist cs :=
  foldl_keep_sublist cs []

end PolyExpand.Node
