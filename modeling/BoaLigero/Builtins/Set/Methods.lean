import BoaLigero.Builtins.Set.Table
import BoaLigero.Util.SkippingLoop

/-!
# The Set Methods

The methods of `Set.prototype` that take a set-like argument. The argument is user code: its
`has` and the iterator of its `keys` answer from the elements of the set and a state of their
own, and may add to, delete from or clear the set while they are called. What a method does is
told by the calls it makes, by the operations that were performed meanwhile, and by its answer.

Three kinds of loop occur. A *walk* goes through the positions of the set itself and calls `has`;
a *drain* steps the iterator of the keys; `difference` goes through the positions of a copy of
the set. User code can keep a loop going for ever, so a method is run with a bounded number of
rounds, after which it has an answer or is still running. The limit that the host can set for the
rounds of a drain (`consume_loop_iteration`) is left out.

`Standard` are the algorithms of the language standard, over the list of entries.

## Main definitions

* `SetMethod.run` — the methods of the source.
* `SetMethod.standard` — the algorithms of the language standard.
-/

namespace BoaLigero.Builtins.SetObject

open SkippingLoop

variable {D K V σ ε A : Type}

/-- What a call of user code leads to: its result, the operations it performed on the set, and
the state of the user code. -/
structure Reply (K σ ε α : Type) where
  result : Except ε α
  ops : List (SetOp K)
  user : σ

/-- A set-like argument. User code is given the elements of the set and its own state. An
infinite size is the largest machine word. -/
structure SetRecord (K V σ ε : Type) where
  size : ℕ
  has : K → List K → σ → Reply K σ ε Bool
  /-- Call `keys` for an iterator. -/
  keys : List K → σ → Reply K σ ε Unit
  /-- Step the iterator: a value, or that there are no more. -/
  next : List K → σ → Reply K σ ε (Option V)
  /-- Close the iterator. -/
  close : List K → σ → Reply K σ ε Unit

/-- A call of user code, with its argument. -/
inductive Call (K : Type)
  | has (k : K)
  | keys
  | next
  | close
deriving DecidableEq

/-- The set of a method, the state of the user code, and the calls made so far. -/
structure Env (D K σ : Type) where
  data : D
  user : σ
  calls : List (Call K)

/-- What a method returns: a boolean or a new set. -/
inductive Answer (D : Type)
  | boolean (b : Bool)
  | set (data : D)

/-- Where a method is after a number of rounds: still running, or ended with an answer or an
exception. -/
abbrev Progress (D K σ ε : Type) := Env D K σ ⊕ Except ε (Answer D) × Env D K σ

section Loops

variable [SetData D K]

/-- Call user code. -/
def Env.call {α : Type} (env : Env D K σ) (c : Call K) (code : List K → σ → Reply K σ ε α) :
    Except ε α × Env D K σ :=
  let reply := code (elements env.data) env.user
  (reply.result, ⟨SetOp.perform env.data reply.ops, reply.user, env.calls ++ [c]⟩)

/-! ### Walks -/

/-- The body of a walk. -/
structure Walker (D K A : Type) where
  /-- What follows the answer of `has` for an element. -/
  visit : Bool → K → A → A ⊕ Answer D
  /-- Whether the number of positions is read again after the answer. -/
  refreshes : Bool → Bool
  /-- The answer at the end of the walk. -/
  finish : A → Answer D

/-- The state of a walk: the environment, the position, the number of positions, and what was
accumulated. -/
structure WalkState (D K σ A : Type) where
  env : Env D K σ
  acc : A
  thisSize : ℕ
  index : ℕ

/-- Call `has` for an element, and go on to the next position unless there is an answer. -/
def Walker.afterHas (w : Walker D K A) (other : SetRecord K V σ ε) (s : WalkState D K σ A) (e : K) :
    WalkState D K σ A ⊕ Except ε (Answer D) × Env D K σ :=
  match s.env.call (.has e) (other.has e) with
  | (.error err, env) => .inr (.error err, env)
  | (.ok inOther, env) =>
      match w.visit inOther e s.acc with
      | .inr answer => .inr (.ok answer, env)
      | .inl acc => .inl
          { env := env
            acc := acc
            thisSize := if w.refreshes inOther then SetData.fullLen env.data else s.thisSize
            index := s.index + 1 }

/-- A round of a walk. -/
def Walker.round (w : Walker D K A) (other : SetRecord K V σ ε) (s : WalkState D K σ A) :
    Round (WalkState D K σ A) (Except ε (Answer D) × Env D K σ) :=
  if s.index < s.thisSize then
    match SetData.getIndex s.env.data s.index with
    | none => .skip { s with index := s.index + 1 }
    | some e => .visit (w.afterHas other s e)
  else .finish (.ok (w.finish s.acc), s.env)

/-- A step of a walk. -/
def Walker.step (w : Walker D K A) (other : SetRecord K V σ ε) (s : WalkState D K σ A) :
    WalkState D K σ A ⊕ Except ε (Answer D) × Env D K σ := (w.round other s).next

/-- The start of a walk. -/
def WalkState.start (env : Env D K σ) (acc : A) : WalkState D K σ A :=
  ⟨env, acc, SetData.fullLen env.data, 0⟩

/-- Walk through the set. -/
def Walker.run (w : Walker D K A) (other : SetRecord K V σ ε) (acc : A) (env : Env D K σ)
    (fuel : ℕ) : Progress D K σ ε :=
  (iterate (w.step other) fuel (.start env acc)).map WalkState.env id

/-! ### Drains -/

/-- The body of a drain: what follows a value of the iterator, and the answer at the end. -/
structure Drainer (D K A : Type) where
  body : D → K → A → A ⊕ Answer D
  finish : A → Answer D

/-- The state of a drain: the environment and what was accumulated. -/
structure DrainState (D K σ A : Type) where
  env : Env D K σ
  acc : A

/-- A step of a drain. An early answer closes the iterator. -/
def Drainer.step (d : Drainer D K A) (canonicalize : V → K) (other : SetRecord K V σ ε)
    (s : DrainState D K σ A) : DrainState D K σ A ⊕ Except ε (Answer D) × Env D K σ :=
  match s.env.call .next other.next with
  | (.error err, env) => .inr (.error err, env)
  | (.ok none, env) => .inr (.ok (d.finish s.acc), env)
  | (.ok (some next), env) =>
      match d.body env.data (canonicalize next) s.acc with
      | .inl acc => .inl ⟨env, acc⟩
      | .inr answer =>
          match env.call .close other.close with
          | (.error err, env) => .inr (.error err, env)
          | (.ok (), env) => .inr (.ok answer, env)

/-- Get the iterator of the keys, and go on from there. -/
def withKeys (other : SetRecord K V σ ε) (env : Env D K σ)
    (rest : Env D K σ → Progress D K σ ε) : Progress D K σ ε :=
  match env.call .keys other.keys with
  | (.error err, env) => .inr (.error err, env)
  | (.ok (), env) => rest env

/-- Drain the iterator of the keys, with what is first made of the set. -/
def Drainer.run (d : Drainer D K A) (canonicalize : V → K) (other : SetRecord K V σ ε)
    (acc : D → A) (env : Env D K σ) (fuel : ℕ) : Progress D K σ ε :=
  withKeys other env fun env =>
    (iterate (d.step canonicalize other) fuel ⟨env, acc env.data⟩).map DrainState.env id

/-! ### The walk through a copy -/

/-- The state of a walk through a copy: the environment, the copy, the position, and the number of
positions. -/
structure DifferenceState (D K σ : Type) where
  env : Env D K σ
  result : D
  thisSize : ℕ
  index : ℕ

/-- Call `has` for an element of the copy, and delete it if it is in the other. -/
def differenceAfterHas (other : SetRecord K V σ ε) (afterDeletion : ℕ → ℕ)
    (s : DifferenceState D K σ) (e : K) :
    DifferenceState D K σ ⊕ Except ε (Answer D) × Env D K σ :=
  match s.env.call (.has e) (other.has e) with
  | (.error err, env) => .inr (.error err, env)
  | (.ok true, env) => .inl
      { s with
        env := env
        result := SetData.delete s.result e
        index := afterDeletion s.index }
  | (.ok false, env) => .inl { s with env := env, index := s.index + 1 }

/-- A round of `difference`, with where it goes on after a deletion. -/
def differenceRound (other : SetRecord K V σ ε) (afterDeletion : ℕ → ℕ)
    (s : DifferenceState D K σ) :
    Round (DifferenceState D K σ) (Except ε (Answer D) × Env D K σ) :=
  if s.index < s.thisSize then
    match SetData.getIndex s.result s.index with
    | none => .skip { s with index := s.index + 1 }
    | some e => .visit (differenceAfterHas other afterDeletion s e)
  else .finish (.ok (.set s.result), s.env)

/-- Walk through a copy of the set. -/
def differenceLoop (other : SetRecord K V σ ε) (afterDeletion : ℕ → ℕ) (env : Env D K σ)
    (fuel : ℕ) : Progress D K σ ε :=
  (iterate (fun s => (differenceRound other afterDeletion s).next) fuel
    ⟨env, env.data, SetData.fullLen env.data, 0⟩).map DifferenceState.env id

end Loops

/-! ### The methods of the source -/

section Source

variable [DecidableEq K]

/-- The walk of `isDisjointFrom`. -/
def disjointWalker : Walker (SetTable K) K Unit where
  visit inOther _ _ := if inOther then .inr (.boolean false) else .inl ()
  refreshes _ := true
  finish _ := .boolean true

/-- The drain of `isDisjointFrom`, which stops at a key in the set. -/
def disjointDrainer : Drainer (SetTable K) K Unit where
  body data next _ := if SetData.contains data next then .inr (.boolean false) else .inl ()
  finish _ := .boolean true

/-- The walk of `isSubsetOf`. -/
def subsetWalker : Walker (SetTable K) K Unit where
  visit inOther _ _ := if !inOther then .inr (.boolean false) else .inl ()
  refreshes _ := true
  finish _ := .boolean true

/-- The drain of `isSupersetOf`, which stops at a key that is not in the set. -/
def supersetDrainer : Drainer (SetTable K) K Unit where
  body data next _ := if !SetData.contains data next then .inr (.boolean false) else .inl ()
  finish _ := .boolean true

/-- The drain of `symmetricDifference`: keys in the set are deleted from the copy, and others are
added. -/
def symmetricDifferenceDrainer : Drainer (SetTable K) K (SetTable K) where
  body data next result := .inl <|
    if SetData.contains data next then SetData.delete result next else SetData.add result next
  finish := .set

/-- The drain of `union`, which adds the keys to the copy. -/
def unionDrainer : Drainer (SetTable K) K (SetTable K) where
  body _ next result := .inl (SetData.add result next)
  finish := .set

/-- The walk of `intersection`. The number of positions is read again for an element that is
in the result, and not for one that is not. -/
def intersectionWalker : Walker (SetTable K) K (SetTable K) where
  visit inOther e result := .inl (if inOther then SetData.add result e else result)
  refreshes inOther := inOther
  finish := .set

/-- The drain of `intersection`, which collects the keys in the set. -/
def intersectionDrainer : Drainer (SetTable K) K (SetTable K) where
  body data next result := .inl <|
    if SetData.contains data next then SetData.add result next else result
  finish := .set

/-- The drain of `difference`, which deletes the keys from the copy. -/
def differenceDrainer : Drainer (SetTable K) K (SetTable K) where
  body _ next result := .inl (SetData.delete result next)
  finish := .set

variable (canonicalize : V → K) (other : SetRecord K V σ ε) (this : Env (SetTable K) K σ)
  (fuel : ℕ)

/-- `Set.prototype.isDisjointFrom` -/
def isDisjointFrom : Progress (SetTable K) K σ ε :=
  if SetData.len this.data ≤ other.size then disjointWalker.run other () this fuel
  else disjointDrainer.run canonicalize other (fun _ => ()) this fuel

/-- `Set.prototype.isSubsetOf` -/
def isSubsetOf : Progress (SetTable K) K σ ε :=
  if other.size < SetData.len this.data then .inr (.ok (.boolean false), this)
  else subsetWalker.run other () this fuel

/-- `Set.prototype.isSupersetOf` -/
def isSupersetOf : Progress (SetTable K) K σ ε :=
  if SetData.len this.data < other.size then .inr (.ok (.boolean false), this)
  else supersetDrainer.run canonicalize other (fun _ => ()) this fuel

/-- `Set.prototype.symmetricDifference` -/
def symmetricDifference : Progress (SetTable K) K σ ε :=
  symmetricDifferenceDrainer.run canonicalize other id this fuel

/-- `Set.prototype.union` -/
def union : Progress (SetTable K) K σ ε := unionDrainer.run canonicalize other id this fuel

/-- `Set.prototype.intersection` -/
def intersection : Progress (SetTable K) K σ ε :=
  if SetData.len this.data ≤ other.size then
    intersectionWalker.run other SetData.new this fuel
  else intersectionDrainer.run canonicalize other (fun _ => SetData.new) this fuel

/-- `Set.prototype.difference`. After a deletion it stays at its position. The copy is made
before the keys are asked for. -/
def difference : Progress (SetTable K) K σ ε :=
  if SetData.len this.data ≤ other.size then differenceLoop other id this fuel
  else differenceDrainer.run canonicalize other (fun _ => this.data) this fuel

end Source

/-! ### The algorithms of the language standard -/

namespace Standard

variable [DecidableEq K]

/-- The walk of the standard for `isDisjointFrom`. -/
def disjointWalker : Walker (EntryList K) K Unit where
  visit inOther _ _ := if inOther then .inr (.boolean false) else .inl ()
  refreshes _ := true
  finish _ := .boolean true

/-- The drain of the standard for `isDisjointFrom`. -/
def disjointDrainer : Drainer (EntryList K) K Unit where
  body data next _ := if SetData.contains data next then .inr (.boolean false) else .inl ()
  finish _ := .boolean true

/-- The walk of the standard for `isSubsetOf`. -/
def subsetWalker : Walker (EntryList K) K Unit where
  visit inOther _ _ := if inOther then .inl () else .inr (.boolean false)
  refreshes _ := true
  finish _ := .boolean true

/-- The drain of the standard for `isSupersetOf`. -/
def supersetDrainer : Drainer (EntryList K) K Unit where
  body data next _ := if SetData.contains data next then .inl () else .inr (.boolean false)
  finish _ := .boolean true

/-- The drain of the standard for `symmetricDifference`. -/
def symmetricDifferenceDrainer : Drainer (EntryList K) K (EntryList K) where
  body data next result := .inl <|
    if SetData.contains data next then
      if SetData.contains result next then SetData.delete result next else result
    else if SetData.contains result next then result
    else SetData.add result next
  finish := .set

/-- The drain of the standard for `union`. -/
def unionDrainer : Drainer (EntryList K) K (EntryList K) where
  body _ next result := .inl <|
    if SetData.contains result next then result else SetData.add result next
  finish := .set

/-- The number of entries is read again after every call of `has`. -/
def intersectionWalker : Walker (EntryList K) K (EntryList K) where
  visit inOther e result := .inl <|
    if inOther then if SetData.contains result e then result else SetData.add result e
    else result
  refreshes _ := true
  finish := .set

/-- The drain of the standard for `intersection`. -/
def intersectionDrainer : Drainer (EntryList K) K (EntryList K) where
  body data next result := .inl <|
    if SetData.contains data next then
      if SetData.contains result next then result else SetData.add result next
    else result
  finish := .set

/-- The drain of the standard for `difference`. -/
def differenceDrainer : Drainer (EntryList K) K (EntryList K) where
  body _ next result := .inl <|
    if SetData.contains result next then SetData.delete result next else result
  finish := .set

variable (canonicalize : V → K) (other : SetRecord K V σ ε) (this : Env (EntryList K) K σ)
  (fuel : ℕ)

/-- `Set.prototype.isDisjointFrom` of the standard: the smaller of the two is gone through. -/
def isDisjointFrom : Progress (EntryList K) K σ ε :=
  if SetData.len this.data ≤ other.size then disjointWalker.run other () this fuel
  else disjointDrainer.run canonicalize other (fun _ => ()) this fuel

/-- `Set.prototype.isSubsetOf` of the standard: a larger set is no subset. -/
def isSubsetOf : Progress (EntryList K) K σ ε :=
  if SetData.len this.data ≤ other.size then subsetWalker.run other () this fuel
  else .inr (.ok (.boolean false), this)

/-- `Set.prototype.isSupersetOf` of the standard: a smaller set is no superset. -/
def isSupersetOf : Progress (EntryList K) K σ ε :=
  if SetData.len this.data < other.size then .inr (.ok (.boolean false), this)
  else supersetDrainer.run canonicalize other (fun _ => ()) this fuel

/-- `Set.prototype.symmetricDifference` of the standard. -/
def symmetricDifference : Progress (EntryList K) K σ ε :=
  symmetricDifferenceDrainer.run canonicalize other id this fuel

/-- `Set.prototype.union` of the standard. -/
def union : Progress (EntryList K) K σ ε := unionDrainer.run canonicalize other id this fuel

/-- `Set.prototype.intersection` of the standard: the smaller of the two is gone through. -/
def intersection : Progress (EntryList K) K σ ε :=
  if SetData.len this.data ≤ other.size then
    intersectionWalker.run other SetData.new this fuel
  else intersectionDrainer.run canonicalize other (fun _ => SetData.new) this fuel

/-- The entry of a deleted element is left empty, and the next position follows. -/
def difference : Progress (EntryList K) K σ ε :=
  if SetData.len this.data ≤ other.size then differenceLoop other (· + 1) this fuel
  else differenceDrainer.run canonicalize other (fun _ => this.data) this fuel

end Standard

/-! ### The methods together -/

/-- The methods that take a set-like argument. -/
inductive SetMethod
  | isDisjointFrom
  | isSubsetOf
  | isSupersetOf
  | symmetricDifference
  | union
  | intersection
  | difference
deriving DecidableEq

namespace SetMethod

variable [DecidableEq K] (canonicalize : V → K) (other : SetRecord K V σ ε)

/-- A method of the source, run for a number of rounds. -/
def run : SetMethod → Env (SetTable K) K σ → ℕ → Progress (SetTable K) K σ ε
  | isDisjointFrom => SetObject.isDisjointFrom canonicalize other
  | isSubsetOf => SetObject.isSubsetOf other
  | isSupersetOf => SetObject.isSupersetOf canonicalize other
  | symmetricDifference => SetObject.symmetricDifference canonicalize other
  | union => SetObject.union canonicalize other
  | intersection => SetObject.intersection canonicalize other
  | difference => SetObject.difference canonicalize other

/-- The algorithm of the language standard, run for a number of rounds. -/
def standard : SetMethod → Env (EntryList K) K σ → ℕ → Progress (EntryList K) K σ ε
  | isDisjointFrom => Standard.isDisjointFrom canonicalize other
  | isSubsetOf => Standard.isSubsetOf other
  | isSupersetOf => Standard.isSupersetOf canonicalize other
  | symmetricDifference => Standard.symmetricDifference canonicalize other
  | union => Standard.union canonicalize other
  | intersection => Standard.intersection canonicalize other
  | difference => Standard.difference canonicalize other

end SetMethod

end BoaLigero.Builtins.SetObject
