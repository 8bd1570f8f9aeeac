import ScriptVM.Proofs.Spared

/-!
# Heaps only grow

What a machine does with values and containers adds objects to the heap or writes to them. It never
takes an object away, so an index that has been given out is not given out again. A function of the
host can do with the heap what it likes; `Heap.Becomes` tells its doings apart from those of the
machine, and `Host.OnlyAdds` is the assumption that it takes nothing away either.
-/

namespace ScriptVM

variable {α : Type} {host : Host}

/-- The second heap is what has become of the first by additions, writes and functions of the
host. -/
inductive Heap.Becomes (host : Host) : Heap → Heap → Prop where
  | grows {h h' : Heap} (hle : ∀ k, h.count k ≤ h'.count k) : Becomes host h h'
  | calls (f : HostFunction) (args : List Value) (h : Heap) :
    Becomes host h (HeapM.after (host f args) h)
  | trans {h h' h'' : Heap} (first : Becomes host h h') (second : Becomes host h' h'') :
    Becomes host h h''

theorem Heap.Becomes.refl (h : Heap) : h.Becomes host h := .grows fun _ => Nat.le_refl _

/-- The functions of the host take no object from the heap. -/
def Host.OnlyAdds (host : Host) : Prop :=
  ∀ f args h k, h.count k ≤ (HeapM.after (host f args) h).count k

/-- A host that leaves certain objects as they are takes none away. -/
theorem Host.Spares.onlyAdds {K : Objects} (h : host.Spares K) : host.OnlyAdds :=
  fun f args heap => (h f args heap).count

/-- Taking nothing away is sparing no object in particular. -/
theorem Host.OnlyAdds.spares (h : host.OnlyAdds) : host.Spares .none :=
  fun f args heap => ⟨h f args heap, fun _ _ hnone => hnone.elim⟩

/-- If the host takes nothing away, there is never less on the heap than before. -/
theorem Heap.Becomes.count_le {h h' : Heap} (hb : h.Becomes host h') (hhost : host.OnlyAdds)
    (k : Kind) : h.count k ≤ h'.count k := by
  induction hb with
  | grows hle => exact hle k
  | calls f args h => exact hhost f args h k
  | trans _ _ ih ih' => exact Nat.le_trans ih ih'

namespace HeapM

/-- Whatever heap the computation begins with, it leaves one that has become of it. -/
def Works (host : Host) (x : HeapM α) : Prop := ∀ h : Heap, h.Becomes host (after x h)

/-- What takes nothing from the heap does it without the host. -/
theorem Spares.works {x : HeapM α} (hx : Spares .none x) : Works host x :=
  fun h => .grows (hx h).count

/-- The builtins of the language are known, and those of the host are one of the ways in which a
heap may become another. -/
theorem works_call (b : Builtin) (args : List Value) : Works host (b.call host args) := by
  cases b with
  | core b => exact (spares_coreCall b args).works
  | host f => exact fun h => .calls f args h

end HeapM

/-- The sample host takes nothing from the heap. -/
theorem onlyAdds_sampleHost : sampleHost.OnlyAdds := (spares_sampleHost .none).onlyAdds

end ScriptVM
