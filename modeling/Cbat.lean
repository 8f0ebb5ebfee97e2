import Cbat.LeafTree
import Cbat.TreePatch
import Cbat.Version
import Cbat.Memory
import Cbat.Rotations
import Cbat.Updates
import Cbat.Machine
import Cbat.Schedule
import Cbat.Runs
import Cbat.Heap
import Cbat.Paths
import Cbat.Plans
import Cbat.Effects
import Cbat.Swing
import Cbat.Later
import Cbat.Attempts
import Cbat.Violations
import Cbat.Frames
import Cbat.Local
import Cbat.Invariant
import Cbat.Calls
import Cbat.Errors
import Cbat.EraseResult
import Cbat.Epochs
import Cbat.Versions
import Cbat.NonNil
import Cbat.Settled
import Cbat.Status
import Cbat.Serve
import Cbat.Visible
import Cbat.Agree
import Cbat.Histories
import Cbat.Solo
import Cbat.Mirror
import Cbat.Sequential
import Cbat.Counting
import Cbat.LinkedTree
import Cbat.Threads
import Cbat.SubEric.Machine
import Cbat.SubEric.Invariant
import Cbat.SubEric.Remove
import Cbat.SubEric.Queries
import Cbat.SubEric.Alone
import Cbat.PointerTree
import Cbat.Chromatic.Model
import Cbat.Chromatic.Symmetry
import Cbat.Chromatic.Rules
import Cbat.Chromatic.Steps
import Cbat.Chromatic.Contents
import Cbat.Chromatic.Reached
import Cbat.Chromatic.Variants
import Cbat.Chromatic.Termination
import Cbat.Chromatic.Mending
import Cbat.Delegation
import Cbat.Refresh.Model
import Cbat.Refresh.Failures
import Cbat.Refresh.Eager
import Cbat.Refresh.Projection
import Cbat.Debra.BlockBag
import Cbat.Debra.Bags
import Cbat.Debra.Rotation
import Cbat.Debra.StartOp
import Cbat.Debra.Grace
import Cbat.RefreshLong
import Cbat.Pointers
import Cbat.Freezing
import Cbat.Scx.StateWord
import Cbat.Scx.Model
import Cbat.Scx.View
import Cbat.Scx.Tree
import Cbat.Scx.Invariant
import Cbat.Scx.Steps
import Cbat.Scx.Reclaim
import Cbat.Scx.Start
import Cbat.Scx.Runs
import Cbat.Scx.Atomic
import Cbat.Scx.Slots
import Cbat.Scx.Retire
import Cbat.Scx.RetireNodes
