import PirTuning.BinLoad.Schedule
import PirTuning.BinLoad.Scratch
import PirTuning.BinLoad.Simulation
import PirTuning.Checkpoint.Place
import PirTuning.Main
import PirTuning.Program.Estimator
import PirTuning.Program.Files
import PirTuning.Program.Report
import PirTuning.Program.Tree
import PirTuning.Program.Tuner
import PirTuning.Rotation.Checked
import PirTuning.Rotation.Evaluation
import PirTuning.Rotation.Witness
import PirTuning.Search.Run
import PirTuning.Search.Schedule
import PirTuning.Walk
import PirTuning.Workers
import PirTuning.Proofs.Rotation.Reach
import PirTuning.Proofs.Rotation.Layers
import PirTuning.Proofs.Rotation.Bounds
import PirTuning.Proofs.Rotation.Witnesses
import PirTuning.Proofs.Rotation.Pruning
import PirTuning.Proofs.Rotation.Words
import PirTuning.Proofs.Rotation.DepthCap
import PirTuning.Proofs.Rotation.Feasibility
import PirTuning.Proofs.Rotation.Residues
import PirTuning.Proofs.Search.Enumeration
import PirTuning.Proofs.Search.GeneratorSets
import PirTuning.Proofs.Search.Minima
import PirTuning.Proofs.Search.Optimum
import PirTuning.Proofs.Search.Interleaving
import PirTuning.Proofs.Search.Optimality
import PirTuning.Proofs.Search.Trace
import PirTuning.Proofs.Rotation.ThreeAndFive
import PirTuning.Proofs.Search.Cutoff
import PirTuning.Proofs.Checkpoint.Numbers
import PirTuning.Proofs.Checkpoint.Rows
import PirTuning.Proofs.Checkpoint.Lines
import PirTuning.Proofs.Checkpoint.Appending
import PirTuning.Proofs.Checkpoint.Grammar
import PirTuning.Proofs.BinLoad.Trials
import PirTuning.Proofs.BinLoad.Saves
import PirTuning.Proofs.BinLoad.Repeats
import PirTuning.Proofs.BinLoad.Draws
import PirTuning.Proofs.BinLoad.Loads
import PirTuning.Proofs.BinLoad.Answers
import PirTuning.Proofs.BinLoad.Schedules
import PirTuning.Proofs.BinLoad.FirstRun
import PirTuning.Proofs.BinLoad.Refusals
import PirTuning.Proofs.BinLoad.Streams
import PirTuning.Proofs.Program.Report
import PirTuning.Proofs.Program.Products
import PirTuning.Proofs.Program.Files
import PirTuning.Proofs.Program.Estimator
import PirTuning.Proofs.Rotation.Enumeration
import PirTuning.Proofs.Rotation.Safety
import PirTuning.Proofs.Search.CandidateSpace
import PirTuning.Proofs.Search.Offers
import PirTuning.Proofs.Rotation.Counts
import PirTuning.Proofs.Rotation.Charges
import PirTuning.Proofs.Rotation.Histories
