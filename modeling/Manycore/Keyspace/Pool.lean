import Manycore.Keyspace.Render

/-! # Keyspaces

A keyspace is a layout together with bindings. Keyspaces made from one another share their layout,
so the layouts of a run live in one pool, and every operation that may fix or add fields passes the
pool on, also when it fails.
-/

namespace Manycore

/-- The layouts of a run, each known by its place. -/
structure Pool where
  layouts : List Keyspace.Layout

namespace Pool

def empty : Pool := ⟨[]⟩

end Pool

/-- A layout, and the values bound so far. -/
structure Keyspace where
  layout : Nat
  bindings : Keyspace.Bindings
  deriving DecidableEq

/-- A computation that may fail and that works on the pool; the pool outlives a failure. -/
abbrev Keying (ε α : Type) := ExceptT ε (StateM Pool) α

namespace Keying

/-- Change what a failure says. -/
def mapError {ε ε' α : Type} (f : ε → ε') (x : Keying ε α) : Keying ε' α :=
  ExceptT.mk do
    let result ← x.run
    pure (result.mapError f)

/-- A result that does not touch the pool. -/
def ofExcept {ε α : Type} (x : Except ε α) : Keying ε α := ExceptT.mk (pure x)

end Keying

namespace Pool

/-- The layout of a keyspace. -/
def layoutOf (p : Pool) (k : Keyspace) : Keyspace.Layout :=
  p.layouts.getD k.layout ⟨1, [], true⟩

def setLayout (p : Pool) (k : Keyspace) (l : Keyspace.Layout) : Pool :=
  ⟨p.layouts.set k.layout l⟩

end Pool

namespace Keyspace

/-- The keyspace as diagnostics show it. -/
def text (k : Keyspace) (p : Pool) : String := (p.layoutOf k).text k.bindings

/-- A keyspace on a new layout without fields. -/
def ofWidth (width : Nat) : Keying KeyError Keyspace := do
  let l ← Keying.ofExcept (Layout.ofWidth width)
  let p ← get
  set (⟨p.layouts ++ [l]⟩ : Pool)
  pure ⟨p.layouts.length, []⟩

/-- Run an operation on the keyspace's layout and keep the layout it leaves. -/
def onLayout {α : Type} (k : Keyspace) (f : Layout → Except KeyError α × Layout) :
    Keying KeyError α := do
  let p ← get
  let (result, l) := f (p.layoutOf k)
  set (p.setLayout k l)
  Keying.ofExcept result

/-- Add a field that exists while the keyspace's bindings hold. -/
def add (k : Keyspace) (spec : FieldSpec) : Keying KeyError Unit :=
  k.onLayout fun l => match l.add k.bindings spec with
    | .ok l' => (.ok (), l')
    | .error e => (.error e, l)

/-- A keyspace with more bindings. -/
def bind (k : Keyspace) (pairs : List (String × Nat)) : Keying KeyError Keyspace :=
  k.onLayout fun l => match l.bind k.bindings pairs with
    | .ok (bindings, l') => (.ok { k with bindings }, l')
    | .error e => (.error e, l)

/-- The value bound to an available field. -/
def get (k : Keyspace) (name : String) : Keying KeyError (Option Nat) :=
  k.onLayout fun l => (l.get k.bindings name, l)

def renderKey (k : Keyspace) (selector : Selector) : Keying KeyError Nat :=
  k.onLayout fun l => l.renderKey k.bindings selector

def renderMask (k : Keyspace) (selector : Selector) : Keying KeyError Nat :=
  k.onLayout fun l => l.renderMask k.bindings selector

end Keyspace

end Manycore
