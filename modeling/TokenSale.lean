import TokenSale.Codec.Layout
import TokenSale.Assembly.Diagnostic
import TokenSale.Assembly.Listing
import TokenSale.Expr.Compile
import TokenSale.Sale.Market
import TokenSale.Files.System
import TokenSale.CommandLine.Run
import TokenSale.Main
import TokenSale.Theory.Numerals
import TokenSale.Proofs.Machine.Run
import TokenSale.Proofs.Machine.Snapshot
import TokenSale.Proofs.Codec.Canonical
import TokenSale.Proofs.Codec.Layout
import TokenSale.Proofs.Script.Analysis
import TokenSale.Proofs.Script.Binary
import TokenSale.Proofs.Script.Canonical
import TokenSale.Proofs.Script.Rejection
import TokenSale.Proofs.Assembly.Listing
import TokenSale.Proofs.Assembly.Reassembly
import TokenSale.Proofs.Expr.Scripts
import TokenSale.Proofs.Expr.Acceptance
import TokenSale.Proofs.Expr.Emission
import TokenSale.Proofs.Expr.Literals
import TokenSale.Proofs.Registry.Refinement
import TokenSale.Proofs.Sale.Calls
import TokenSale.Proofs.Sale.History
import TokenSale.Proofs.Sale.Payment
import TokenSale.Proofs.Sale.Solvency
import TokenSale.Proofs.Sale.Bystanders
import TokenSale.Proofs.Sale.Supply
import TokenSale.Proofs.Sale.Quotes
import TokenSale.Proofs.Sale.Evaluation
import TokenSale.Proofs.Sale.Compiled
import TokenSale.Proofs.Sale.Gates
import TokenSale.Proofs.Sale.Caps
import TokenSale.Proofs.Sale.Proceeds
import TokenSale.Proofs.Sale.Conservation
import TokenSale.Proofs.Sale.Allowances
import TokenSale.Proofs.Expr.Ramp
import TokenSale.Proofs.Sale.Terms
import TokenSale.Proofs.Sale.Delegation
import TokenSale.Proofs.Machine.Aggregate
import TokenSale.Proofs.Machine.Tiers
import TokenSale.Proofs.Machine.StepLimit
import TokenSale.Proofs.Machine.Reuse
import TokenSale.Proofs.Machine.Locality
import TokenSale.Proofs.Machine.Stack
import TokenSale.Proofs.Sale.Royalty
import TokenSale.Proofs.Address.Spelling
import TokenSale.Proofs.Text.Numerals
import TokenSale.Proofs.Assembly.Numerals
import TokenSale.Proofs.Assembly.Words
import TokenSale.Proofs.Assembly.Items
import TokenSale.Proofs.Assembly.Refusal
import TokenSale.Proofs.Assembly.Grammar
import TokenSale.Proofs.Assembly.Diagnostic
import TokenSale.Proofs.CommandLine.Input
import TokenSale.Proofs.Address.Forms
import TokenSale.Proofs.Assembly.Runs
import TokenSale.Proofs.Machine.Respelling
