import Mathlib.Data.List.Basic

/-!
# Backtracking patterns over characters

The fragment of a backtracking regular-expression engine that named-group patterns need:
character classes, sequence, ordered choice, greedy repetition and capture groups. A pattern
denotes the LIST of its matches in the order a backtracking engine tries them, so the engine's
answer is the head of the list and "which alternative wins" is a statement about list order.

A match is the captures it made, in the order it made them, together with the input it left.
`Pattern.star` re-enters its body only while the body consumes input; its fuel is the length of
the input, which such a repetition can never exhaust.
-/

namespace Lib

/-- A pattern with capture groups named by `γ`. -/
inductive Pattern (γ : Type) where
  /-- The empty pattern. -/
  | eps
  /-- One character of a class. -/
  | cls (p : Char → Bool)
  /-- One pattern after another. -/
  | seq (first second : Pattern γ)
  /-- Ordered choice: the left alternative is tried first. -/
  | alt (left right : Pattern γ)
  /-- Greedy repetition, zero or more times. -/
  | star (body : Pattern γ)
  /-- A named capture group. -/
  | group (name : γ) (body : Pattern γ)

namespace Pattern

variable {γ : Type}

/-- What one way of matching captured, and the input it left. -/
abbrev Match (γ : Type) := List (γ × List Char) × List Char

/-- Greedy repetition of a matcher: another round first, stopping second. -/
def repeatTries (body : List Char → List (Match γ)) : Nat → List Char → List (Match γ)
  | 0, input => [([], input)]
  | fuel + 1, input =>
    ((body input).flatMap fun m =>
      if m.2.length < input.length then
        (repeatTries body fuel m.2).map fun n => (m.1 ++ n.1, n.2)
      else []) ++ [([], input)]

/-- All matches of a pattern at the start of the input, in backtracking order. -/
def tries : Pattern γ → List Char → List (Match γ)
  | .eps, input => [([], input)]
  | .cls _, [] => []
  | .cls p, c :: rest => if p c then [([], rest)] else []
  | .seq first second, input =>
    (first.tries input).flatMap fun m =>
      (second.tries m.2).map fun n => (m.1 ++ n.1, n.2)
  | .alt left right, input => left.tries input ++ right.tries input
  | .star body, input => repeatTries body.tries input.length input
  | .group name body, input =>
    (body.tries input).map fun m =>
      (m.1 ++ [(name, input.take (input.length - m.2.length))], m.2)

section Tries

variable {f : Char → Bool} {c : Char} {p q body : Pattern γ} {rest input : List Char}
  {matcher : List Char → List (Match γ)} {fuel : Nat}

@[simp] theorem repeatTries_zero : repeatTries matcher 0 input = [([], input)] := rfl

theorem repeatTries_succ : repeatTries matcher (fuel + 1) input =
    ((matcher input).flatMap fun m =>
      if m.2.length < input.length then
        (repeatTries matcher fuel m.2).map fun n => (m.1 ++ n.1, n.2)
      else []) ++ [([], input)] := rfl

@[simp] theorem tries_eps : (eps : Pattern γ).tries input = [([], input)] := rfl

@[simp] theorem tries_cls_nil : (cls f : Pattern γ).tries [] = [] := rfl

@[simp] theorem tries_cls_cons :
    (cls f : Pattern γ).tries (c :: rest) = if f c then [([], rest)] else [] := rfl

@[simp] theorem tries_seq : (seq p q).tries input =
    (p.tries input).flatMap fun m => (q.tries m.2).map fun n => (m.1 ++ n.1, n.2) := rfl

@[simp] theorem tries_alt : (alt p q).tries input = p.tries input ++ q.tries input := rfl

theorem tries_star : (star body).tries input = repeatTries body.tries input.length input := rfl

@[simp] theorem tries_group {name : γ} : (group name body).tries input =
    (body.tries input).map fun m =>
      (m.1 ++ [(name, input.take (input.length - m.2.length))], m.2) := rfl

end Tries

/-- The engine's answer: the first match in backtracking order. -/
def match? (p : Pattern γ) (input : List Char) : Option (Match γ) := (p.tries input).head?

/-- The text of a group in a match: its last capture, `none` if it took no part. -/
def Match.group? [DecidableEq γ] (m : Match γ) (name : γ) : Option (List Char) :=
  (m.1.reverse.find? (·.1 = name)).map (·.2)

/-- One or more times, greedily. -/
def plus (body : Pattern γ) : Pattern γ := .seq body (.star body)

/-- Zero or one time, greedily. -/
def opt (body : Pattern γ) : Pattern γ := .alt body .eps

/-- A given sequence of character classes. -/
def word : List (Char → Bool) → Pattern γ
  | [] => .eps
  | p :: ps => .seq (.cls p) (word ps)

/-- The pieces of the input between the matches of a pattern that never matches the empty string,
the scan standing behind `piece`. Each round consumes a character, so the input's length bounds
the rounds. -/
def splitFrom (p : Pattern γ) : Nat → List Char → List Char → List (List Char)
  | 0, piece, input => [piece ++ input]
  | _ + 1, piece, [] => [piece]
  | rounds + 1, piece, c :: rest =>
    match p.match? (c :: rest) with
    | some m => piece :: splitFrom p rounds [] m.2
    | none => splitFrom p rounds (piece ++ [c]) rest

/-- Splitting at every match, leftmost first. -/
def split (p : Pattern γ) (input : List Char) : List (List Char) :=
  p.splitFrom (input.length + 1) [] input

end Pattern

end Lib
