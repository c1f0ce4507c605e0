/-
The completely fair policy (`src/scheduler_fair.c`).

A `sched_entity_t` begins with its tree node, so a node and its entity have one address.
Entities are allocated and never freed: their addresses are numbered in the order of the
allocations, and `allocated` is the number of them. A loop over the tree makes at most
`allocated` rounds in a tree of entities; `none` stands for a loop that goes on, a null
pointer that is dereferenced, a division by a weight of zero, and a `scheduler_data` that
is read as `sched_entity_t` and is none.

`se->task` of `scheduler_pick_next_fair` is the task that owns the entity. What
`prio_to_weight` yields behind its end is an argument, and so is `timer_get_ticks()`.
-/
import ArmKernel.Support.RbInsert
import ArmKernel.Tasks.Table

namespace ArmKernel.Sched

open ArmKernel.Support ArmKernel.Tasks

/-- `sched_entity_t`, without its tree node. -/
structure SchedEntity (n : Nat) where
  vruntime : Nat
  weight : Nat
  minGranularity : Nat
  execStart : Nat
  sumExecRuntime : Nat
  task : Fin n

/-- The entities, with the tree under `rb_root`. -/
structure Fair (n : Nat) where
  tree : RbMem Nat
  entity : Nat → SchedEntity n
  allocated : Nat

/-- The entities and the tasks that own them. -/
structure FairSys (n : Nat) where
  sys : TaskSys n
  fair : Fair n

/-- `prio_to_weight`. -/
def prioToWeight : List Nat :=
  [88761, 71755, 56483, 46273, 36291,
    29154, 23254, 18705, 14949, 11916,
    9548, 7620, 6100, 4904, 3906,
    3121, 2501, 1991, 1586, 1277,
    1024, 820, 655, 526, 423,
    335, 272, 215, 172, 137,
    110, 87, 70, 56, 45,
    36, 29, 23, 18, 15]

variable {n : Nat}

/-- Write one entity. -/
def Fair.modify (fair : Fair n) (e : Nat) (f : SchedEntity n → SchedEntity n) : Fair n :=
  { fair with entity := Function.update fair.entity e (f (fair.entity e)) }

/-- `rb_root = NULL`, and no entity. -/
def Fair.empty (blank : Nat → SchedEntity n) : Fair n where
  tree := { node := fun _ => { parent := none, left := none, right := none, color := .black }
            root := none }
  entity := blank
  allocated := 0

/-- `init_sched_entity`; `malloc` is the success of the allocation and `beyond` the word
behind the table. -/
def initSchedEntity (s : FairSys n) (t : Fin n) (malloc : Bool) (beyond : Nat) : FairSys n :=
  if ¬ malloc then s
  else
    let e := s.fair.allocated
    { sys := s.sys.modify t fun task => { task with schedulerData := .fair e }
      fair :=
        { tree := s.fair.tree.modify e fun _ =>
            { parent := none, left := none, right := none, color := .black }
          entity := Function.update s.fair.entity e
            { vruntime := 0
              weight := (prioToWeight[20 + (s.sys.taskList t).priority]?).getD beyond
              minGranularity := 1000000
              execStart := 0
              sumExecRuntime := 0
              task := t }
          allocated := e + 1 } }

/-- The virtual runtime of an entity after `scheduler_update_vruntime`. -/
def vruntimeAt (now : Nat) (entity : SchedEntity n) : Nat :=
  wrap64 (entity.vruntime + wrap64 (sub64 now entity.execStart * 1024) / entity.weight)

/-- `scheduler_update_vruntime`. -/
def schedulerUpdateVruntime (s : FairSys n) (now : Nat) (task : Option (Fin n)) :
    Option (FairSys n) :=
  match task with
  | none => some s
  | some t =>
    match (s.sys.taskList t).schedulerData with
    | .null => some s
    | .fair e =>
      if (s.fair.entity e).weight = 0 then none
      else
        some { s with
          fair := s.fair.modify e fun entity =>
            { entity with
              vruntime := vruntimeAt now entity
              sumExecRuntime := wrap64 (entity.sumExecRuntime + sub64 now entity.execStart) } }
    | _ => none

/-- `scheduler_set_weight`. -/
def schedulerSetWeight (s : FairSys n) (task : Option (Fin n)) (weight : Nat) :
    Option (FairSys n) :=
  match task with
  | none => some s
  | some t =>
    match (s.sys.taskList t).schedulerData with
    | .null => some s
    | .fair e => some { s with fair := s.fair.modify e fun entity => { entity with weight } }
    | _ => none

/-- The leftmost entity below the root, if there is a root. -/
def leftmost (fair : Fair n) : Option (Option Nat) :=
  match fair.tree.root with
  | none => some none
  | some r => (walkLast (fun e => (fair.tree.node e).left) fair.allocated r).map some

/-- `scheduler_min_vruntime`. -/
def schedulerMinVruntime (fair : Fair n) : Option Nat :=
  (leftmost fair).map fun first =>
    match first with
    | none => 0
    | some e => (fair.entity e).vruntime

/-- `scheduler_pick_next_fair`. -/
def schedulerPickNextFair (fair : Fair n) : Option (Option (Fin n)) :=
  (leftmost fair).map fun first => first.map fun e => (fair.entity e).task

/-- The body of `enqueue_task_fair`. Both rotations of the file test the left link. -/
def enqueueEntity (fair : Fair n) (e : Nat) : Option (Fair n) :=
  (fair.tree.descend
      (fun entry => decide ((fair.entity e).vruntime < (fair.entity entry).vruntime))
      fair.allocated none).bind fun slot =>
    ((fair.tree.linkNode slot e).insertColor (fun _ => .left) fair.allocated e).map fun tree =>
      { fair with tree }

/-- `enqueue_task_fair`. -/
def enqueueTaskFair (s : FairSys n) (task : Option (Fin n)) : Option (FairSys n) :=
  match task with
  | none => some s
  | some t =>
    match (s.sys.taskList t).schedulerData with
    | .null => some s
    | .fair e => (enqueueEntity s.fair e).map fun fair => { s with fair }
    | _ => none

/-- `dequeue_task_fair`: the removal is not written. -/
def dequeueTaskFair (s : FairSys n) (_task : Option (Fin n)) : FairSys n := s

/-- `scheduler_fair_tick`; `true` when it ends in `scheduler_yield`. -/
def schedulerFairTick (s : FairSys n) (now : Nat) : Option (FairSys n × Bool) :=
  match taskGetCurrent s.sys with
  | none => some (s, false)
  | some t =>
    match (s.sys.taskList t).schedulerData with
    | .null => some (s, false)
    | .fair e =>
      (schedulerUpdateVruntime s now (some t)).bind fun s =>
        (schedulerMinVruntime s.fair).bind fun least =>
          let entity := s.fair.entity e
          if wrap64 (least + entity.minGranularity) < entity.vruntime then
            (enqueueTaskFair (dequeueTaskFair s (some t)) (some t)).map fun s => (s, true)
          else some (s, false)
    | _ => none

end ArmKernel.Sched
