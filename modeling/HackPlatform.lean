import HackPlatform.Main
import HackPlatform.Files.Tree
import HackPlatform.Proofs.Asm.Binary
import HackPlatform.Proofs.Asm.Computing
import HackPlatform.Proofs.Asm.Disassembly
import HackPlatform.Proofs.Asm.Failure
import HackPlatform.Proofs.Asm.Listing
import HackPlatform.Proofs.Asm.Renaming
import HackPlatform.Proofs.Asm.Rows
import HackPlatform.Proofs.Asm.Safety
import HackPlatform.Proofs.Job.Run
import HackPlatform.Proofs.Machine.Atomic
import HackPlatform.Proofs.Machine.Parked
import HackPlatform.Proofs.Vm.Batch
import HackPlatform.Proofs.Vm.CommandGrammar
import HackPlatform.Proofs.Vm.Driver
import HackPlatform.Proofs.Vm.Effects
import HackPlatform.Proofs.Vm.Inventory
import HackPlatform.Proofs.Vm.Labels
import HackPlatform.Proofs.Vm.Layout
import HackPlatform.Proofs.Vm.Linkage
import HackPlatform.Proofs.Vm.Locals
import HackPlatform.Proofs.Vm.Notes
import HackPlatform.Proofs.Vm.Record
import HackPlatform.Proofs.Vm.Truncation
