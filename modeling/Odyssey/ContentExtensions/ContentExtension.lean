import Odyssey.ContentExtensions.DFABytecodeInterpreter
import Odyssey.WTF.Text

/-!
# The cache of the actions for a domain

A `ContentExtension` keeps the actions for the last domain that was asked for. The domain of the
cache is the null string at first, and the actions are empty. So a null string that is asked for
before any other domain gets no actions, whatever the bytecode says; from the first other domain on,
every call gets what the bytecode says.
-/
namespace Odyssey.ContentExtensions

open WTF (Text)
open DFABytecodeInterpreter (interpret actionsMatchingEverything)

/-! ## The model -/

/-- The bytecode that a `ContentExtension` reads. -/
structure CompiledContentExtension where
  filtersWithDomainsBytecode : List Nat
  domainFiltersBytecode : List Nat
  deriving DecidableEq

/-- A `ContentExtension`; a null domain is `none`. -/
structure ContentExtension where
  compiledExtension : CompiledContentExtension
  universalActionsWithDomains : List Nat
  cachedDomain : Option Text
  cachedDomainActions : Finset Nat
  cachedUniversalDomainActions : List Nat
  deriving DecidableEq

namespace ContentExtension

def allLoadTypesAndResourceTypes : Nat := 0x0C00 ||| 0x03FF

/-- `String::utf8`; the bytes of a null string are those of an empty one. -/
def domainBytes (domain : Option Text) : List Nat := (domain.getD []).utf8

section

variable (fuel : Nat)

/-- The constructor. The order in which a set is walked through is that of its hash table. -/
def create (order : Finset Nat → List Nat) (compiledExtension : CompiledContentExtension) :
    Option ContentExtension := do
  let actions ← actionsMatchingEverything compiledExtension.filtersWithDomainsBytecode fuel
  return {
    compiledExtension
    universalActionsWithDomains := order actions
    cachedDomain := none
    cachedDomainActions := ∅
    cachedUniversalDomainActions := [] }

/-- The universal actions that apply to a domain with these actions. -/
def filterUniversalActions (domainActions : Finset Nat) (actions : List Nat) : List Nat :=
  (actions.filter fun action => hasIfDomainFlag action == decide (action ∈ domainActions)).map
    actionLocation

def populateDomainCacheIfNeeded (domain : Option Text) (e : ContentExtension) :
    Option ContentExtension :=
  if e.cachedDomain ≠ domain then do
    let domainActions ← interpret e.compiledExtension.domainFiltersBytecode (domainBytes domain)
      allLoadTypesAndResourceTypes fuel
    return { e with
      cachedDomainActions := domainActions
      cachedUniversalDomainActions :=
        filterUniversalActions domainActions e.universalActionsWithDomains
      cachedDomain := domain }
  else some e

/-- A call of `cachedDomainActions` or of `universalActionsWithDomains`. -/
inductive Call where
  | cachedDomainActions (domain : Option Text)
  | universalActionsWithDomains (domain : Option Text)

def Call.domain : Call → Option Text
  | .cachedDomainActions domain => domain
  | .universalActionsWithDomains domain => domain

/-- What a call returns. -/
inductive Answer where
  | actions (actions : Finset Nat)
  | locations (locations : List Nat)
  deriving DecidableEq

/-- What a call returns when the collections are these. -/
def Call.select (domainActions : Finset Nat) (universalActions : List Nat) : Call → Answer
  | .cachedDomainActions _ => .actions domainActions
  | .universalActionsWithDomains _ => .locations universalActions

/-- A call. It does not return when the interpreter does not. -/
def call (c : Call) (e : ContentExtension) : Option (Answer × ContentExtension) := do
  let e ← e.populateDomainCacheIfNeeded fuel c.domain
  return (c.select e.cachedDomainActions e.cachedUniversalDomainActions, e)

/-- The answers of the calls one after the other, up to one that does not return. -/
def answers : List Call → ContentExtension → List Answer
  | [], _ => []
  | c :: calls, e =>
    match e.call fuel c with
    | none => []
    | some (answer, e) => answer :: answers calls e

/-! ## What the bytecode says -/

/-- The answer of a call by the bytecode alone. -/
def compute (e : ContentExtension) (c : Call) : Option Answer := do
  let domainActions ← interpret e.compiledExtension.domainFiltersBytecode (domainBytes c.domain)
    allLoadTypesAndResourceTypes fuel
  return c.select domainActions (filterUniversalActions domainActions e.universalActionsWithDomains)

def computeAll (e : ContentExtension) : List Call → List Answer
  | [] => []
  | c :: calls =>
    match e.compute fuel c with
    | none => []
    | some answer => answer :: e.computeAll calls

/-- The answer of a call before the cache is filled. -/
def Call.emptyAnswer (c : Call) : Answer := c.select ∅ []

/-- The calls for the null string before any other domain have nothing to find. -/
def nullCallsEmpty (e : ContentExtension) (calls : List Call) : Prop :=
  ∀ c ∈ calls.takeWhile fun c => c.domain.isNone, e.compute fuel c = some c.emptyAnswer

end

variable {fuel : Nat}

/-- The cache holds what the bytecode says for its domain. -/
structure Valid (fuel : Nat) (e : ContentExtension) : Prop where
  domainActions : interpret e.compiledExtension.domainFiltersBytecode (domainBytes e.cachedDomain)
    allLoadTypesAndResourceTypes fuel = some e.cachedDomainActions
  universalActions : e.cachedUniversalDomainActions =
    filterUniversalActions e.cachedDomainActions e.universalActionsWithDomains

/-- The bytecode and the universal actions never change. -/
structure Same (e e' : ContentExtension) : Prop where
  compiledExtension : e'.compiledExtension = e.compiledExtension
  universalActionsWithDomains : e'.universalActionsWithDomains = e.universalActionsWithDomains

variable {e : ContentExtension}

theorem Same.compute_eq {e' : ContentExtension} (h : Same e e') (c : Call) :
    e'.compute fuel c = e.compute fuel c := by
  rw [compute, compute, h.compiledExtension, h.universalActionsWithDomains]

theorem Same.computeAll_eq {e' : ContentExtension} (h : Same e e') (calls : List Call) :
    e'.computeAll fuel calls = e.computeAll fuel calls := by
  induction calls with
  | nil => rfl
  | cons c calls ih => rw [computeAll, computeAll, h.compute_eq, ih]

/-- Filling the cache makes it valid. -/
theorem call_of_ne {c : Call} (h : e.cachedDomain ≠ c.domain) :
    (e.call fuel c = none ∧ e.compute fuel c = none) ∨
      ∃ answer e', e.call fuel c = some (answer, e') ∧ e.compute fuel c = some answer ∧
        Same e e' ∧ e'.Valid fuel := by
  rw [call, compute, populateDomainCacheIfNeeded, if_pos h]
  cases hrun : interpret e.compiledExtension.domainFiltersBytecode (domainBytes c.domain)
    allLoadTypesAndResourceTypes fuel with
  | none => exact .inl ⟨rfl, rfl⟩
  | some domainActions => exact .inr ⟨_, _, rfl, rfl, ⟨rfl, rfl⟩, hrun, rfl⟩

/-- A valid cache gives what the bytecode says. -/
theorem call_of_eq {c : Call} (h : e.cachedDomain = c.domain) :
    e.call fuel c =
      some (c.select e.cachedDomainActions e.cachedUniversalDomainActions, e) := by
  rw [call, populateDomainCacheIfNeeded, if_neg (not_not.mpr h)]
  rfl

theorem Valid.compute_eq {c : Call} (hvalid : e.Valid fuel) (h : e.cachedDomain = c.domain) :
    e.compute fuel c = some (c.select e.cachedDomainActions e.cachedUniversalDomainActions) := by
  rw [compute, ← h, hvalid.domainActions, hvalid.universalActions]
  rfl

theorem answers_of_valid (calls : List Call) (h : e.Valid fuel) :
    e.answers fuel calls = e.computeAll fuel calls := by
  induction calls generalizing e with
  | nil => rfl
  | cons c calls ih =>
    rw [answers, computeAll]
    by_cases heq : e.cachedDomain = c.domain
    · rw [call_of_eq heq, h.compute_eq heq]
      exact congrArg _ (ih h)
    · rcases call_of_ne heq with ⟨hcall, hcompute⟩ | ⟨answer, e', hcall, hcompute, hsame, hvalid⟩
      · rw [hcall, hcompute]
      · rw [hcall, hcompute]
        exact congrArg _ ((ih hvalid).trans (hsame.computeAll_eq calls))

/-- Before the cache is filled, the calls for the null string get nothing. -/
theorem answers_iff_of_empty (calls : List Call) (hdomain : e.cachedDomain = none)
    (hactions : e.cachedDomainActions = ∅) (huniversal : e.cachedUniversalDomainActions = []) :
    e.answers fuel calls = e.computeAll fuel calls ↔ e.nullCallsEmpty fuel calls := by
  induction calls with
  | nil => simp [answers, computeAll, nullCallsEmpty]
  | cons c calls ih =>
    rw [answers, computeAll]
    cases hnull : c.domain with
    | none =>
      have hiff : e.nullCallsEmpty fuel (c :: calls) ↔
          e.compute fuel c = some c.emptyAnswer ∧ e.nullCallsEmpty fuel calls := by
        simp [nullCallsEmpty, hnull]
      rw [call_of_eq (hdomain.trans hnull.symm), hactions, huniversal, hiff, ← ih]
      cases hcompute : e.compute fuel c with
      | none => simp
      | some answer => simp [Call.emptyAnswer, eq_comm]
    | some domain =>
      have hne : e.cachedDomain ≠ c.domain := by
        rw [hdomain, hnull]
        exact Option.some_ne_none domain |>.symm
      have htrue : e.nullCallsEmpty fuel (c :: calls) := by
        simp [nullCallsEmpty, hnull]
      refine iff_of_true ?_ htrue
      rcases call_of_ne hne with ⟨hcall, hcompute⟩ | ⟨answer, e', hcall, hcompute, hsame, hvalid⟩
      · rw [hcall, hcompute]
      · rw [hcall, hcompute]
        exact congrArg _ ((answers_of_valid calls hvalid).trans (hsame.computeAll_eq calls))

/-- The answers to any calls are those of the bytecode if and only if the calls for the null string
before any other domain have nothing to find. -/
theorem answers_eq_computeAll_iff (order : Finset Nat → List Nat)
    (compiledExtension : CompiledContentExtension) (e : ContentExtension)
    (he : create fuel order compiledExtension = some e) (calls : List Call) :
    e.answers fuel calls = e.computeAll fuel calls ↔ e.nullCallsEmpty fuel calls := by
  rw [create, Option.bind_eq_bind, Option.bind_eq_some_iff] at he
  obtain ⟨actions, -, he⟩ := he
  cases he
  exact answers_iff_of_empty calls rfl rfl rfl

/-- The actions below 10 in order. -/
def smallActions (actions : Finset Nat) : List Nat := (List.range 10).filter (· ∈ actions)

/-- An extension with the action 7 for every URL, unless the domain is one that no automaton has. -/
def exampleExtension : CompiledContentExtension where
  filtersWithDomainsBytecode := [10, 0, 0, 0, 6, 7, 0, 0, 0, 10]
  domainFiltersBytecode := []

/-- The extension that the constructor makes of it. -/
def exampleCreated : ContentExtension where
  compiledExtension := exampleExtension
  universalActionsWithDomains := [7]
  cachedDomain := none
  cachedDomainActions := ∅
  cachedUniversalDomainActions := []

theorem answers_eq_computeAll_domain_null :
    create 10 smallActions exampleExtension = some exampleCreated ∧
      exampleCreated.answers 10 [.universalActionsWithDomains (some (WTF.text "a.com")),
          .universalActionsWithDomains none] =
        exampleCreated.computeAll 10 [.universalActionsWithDomains (some (WTF.text "a.com")),
          .universalActionsWithDomains none] := by
  have hcreate : create 10 smallActions exampleExtension =
      some exampleCreated := by decide +kernel
  refine ⟨hcreate, (answers_eq_computeAll_iff _ _ _ hcreate _).mpr ?_⟩
  simp [nullCallsEmpty, Call.domain]

/-- The null string is asked for first, and the action 7 is missing. -/
theorem answers_ne_computeAll_null :
    create 10 smallActions exampleExtension = some exampleCreated ∧
      exampleCreated.answers 10 [.universalActionsWithDomains none] = [.locations []] ∧
      exampleCreated.computeAll 10 [.universalActionsWithDomains none] = [.locations [7]] := by
  decide +kernel

end ContentExtension

end Odyssey.ContentExtensions
