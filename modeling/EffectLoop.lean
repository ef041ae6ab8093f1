import EffectLoop.Main
import EffectLoop.Session.Single
import EffectLoop.Json.Reader
import EffectLoop.Proofs.Registry
import EffectLoop.Proofs.Driving
import EffectLoop.Proofs.Settlement
import EffectLoop.Proofs.Suspension
import EffectLoop.Proofs.Inputs
import EffectLoop.Proofs.Homes
import EffectLoop.Proofs.Waking
import EffectLoop.Proofs.Panics
import EffectLoop.Proofs.Veils
import EffectLoop.Proofs.Discretion
import EffectLoop.Proofs.Termination
import EffectLoop.Proofs.Leaves
import EffectLoop.Proofs.Ladders
import EffectLoop.Proofs.Wakeups
import EffectLoop.Proofs.Grasps
import EffectLoop.Proofs.Keeping
import EffectLoop.Proofs.ScriptKeys
import EffectLoop.Proofs.Lifecycle
import EffectLoop.Proofs.Deliveries
import EffectLoop.Proofs.Kin
import EffectLoop.Proofs.FanOut
import EffectLoop.Proofs.Answers
import EffectLoop.Proofs.Raised
import EffectLoop.Proofs.Boundary
import EffectLoop.Proofs.Calls
import EffectLoop.Proofs.Checkout
import EffectLoop.Proofs.Passes
import EffectLoop.Proofs.Forks
import EffectLoop.Proofs.Nested
import EffectLoop.Proofs.Wires
import EffectLoop.Proofs.Orders
import EffectLoop.Proofs.Payments
import EffectLoop.Proofs.Chains
import EffectLoop.Proofs.Mismatches
import EffectLoop.Proofs.Desk
import EffectLoop.Proofs.Settings
