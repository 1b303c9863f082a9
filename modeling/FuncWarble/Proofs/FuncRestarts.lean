import Mathlib
import FuncWarble.Machine.Successors
import FuncWarble.Proofs.FuncRefinement

/-! # Restarts of the func server

The hooks are in the memory of the func server only, and the store is on another server. When the
func server stops, between any two RPCs of its calls, the hooks and the calls in flight are gone.
The store that the next func server finds is still one of the warble service: all servers together
refine one run of it.
-/

namespace FuncWarble.Proofs

open Text Model Machine

/-- Func servers that follow each other, each with the events of its life: what they come to, and
the store that they leave behind. -/
def serveLives (platform : Platform) (packing : Packing) (store : KeyValueStoreImpl) :
    List (List (Event FuncCall)) → List FuncConfig × KeyValueStoreImpl
  | [] => ([], store)
  | life :: lives =>
    let last := (funcService platform packing).run
      (System.initial ⟨FuncServiceImpl.new, store, []⟩) life
    let later := serveLives platform packing last.world.state.store lives
    (last :: later.1, later.2)

variable {platform : Platform} {packing : Packing}

/-- One run of the warble service contains what all the servers do to the store: its tasks are, one
server after the other, those that refine the life of the server. -/
theorem func_restarts (store : KeyValueStoreImpl) (lives : List (List (Event FuncCall))) :
    let served := serveLives platform packing store lives
    ∃ events pieces,
      let whole := (warbleService platform).run (System.initial store) events
      whole.world.state = served.2 ∧
        whole.tasks = pieces.flatMap Config.tasks ∧
        whole.world.trace = pieces.flatMap (fun piece => piece.world.trace) ∧
        List.Forall₂ (fun last piece => ∃ owners, Refines packing last piece owners)
          served.1 pieces := by
  induction lives generalizing store with
  | nil => exact ⟨[], [], rfl, rfl, rfl, .nil⟩
  | cons life lives ih =>
    obtain ⟨before, owners, refines⟩ :=
      @exists_refines platform packing FuncServiceImpl.new store life
    generalize reached : (funcService platform packing).run
      (System.initial ⟨FuncServiceImpl.new, store, []⟩) life = last at refines
    obtain ⟨events, pieces, left, tasks, trace, lives⟩ := ih last.world.state.store
    have joined := @System.run_append_behind _ _ _ _ _ (warbleService platform) store before events
    generalize (warbleService platform).run (System.initial store) before = piece at refines joined
    simp only [refines.store] at joined
    refine ⟨before ++ events.map (Event.behind piece.tasks.length), piece :: pieces, ?_⟩
    simp only [serveLives, reached, joined]
    exact ⟨left, congrArg _ tasks, congrArg _ trace, .cons ⟨owners, refines⟩ lives⟩

end FuncWarble.Proofs
