import InfixOS.Posix.FileTree
import InfixOS.Posix.Commands
import InfixOS.Posix.Words
import InfixOS.Graph.PostOrder
import InfixOS.Posix.Find
import InfixOS.Dagger.Tool
import InfixOS.Dagger.Library
import InfixOS.Dagger.Order
import InfixOS.Dagger.Evolve
import InfixOS.Dagger.EvolveRuns
import InfixOS.Dagger.Lifecycle
import InfixOS.Dagger.Store
import InfixOS.Dagger.Claim
import InfixOS.Dagger.Ending
import InfixOS.Dagger.Consistency
import InfixOS.Dagger.ClaimFailure
import InfixOS.Core.Sysrepo
import InfixOS.Posix.CommandLine
import InfixOS.IetfSystem.Callbacks
import InfixOS.IetfSystem.Atomic
import InfixOS.Core.Lyx
import InfixOS.Yang.Diff
import InfixOS.Posix.Mount
import InfixOS.Boot.Mnt
import InfixOS.Core.Finit
import InfixOS.InfixDhcp.Client
import InfixOS.InfixDhcp.Following
import InfixOS.IetfSystem.NtpService
import InfixOS.Exec.Program
import InfixOS.Netdag.Generate
import InfixOS.Netdag.Rules
import InfixOS.Netdag.LiveSystem
import InfixOS.Netdag.Emission
import InfixOS.Netdag.Requests
import InfixOS.Netdag.Share
import InfixOS.Dagger.ExitAction
import InfixOS.Netdag.Contents
import InfixOS.Netdag.Commits
import InfixOS.Netdag.Stacking
import InfixOS.Netdag.Dependencies
import InfixOS.Netdag.Links
import InfixOS.Netdag.Teardown
import InfixOS.Netdag.Creation
import InfixOS.Boot.Reset
import InfixOS.Posix.Stdio
import InfixOS.Exec.Streams
import InfixOS.NetTool.Main
import InfixOS.Graph.Walk
import InfixOS.NetTool.Visits
import InfixOS.NetTool.Activation
import InfixOS.NetTool.Order
import InfixOS.NetTool.Effects
import InfixOS.NetTool.Confirm
import InfixOS.NetTool.Retry
import InfixOS.Extent.Layout
import InfixOS.Uboot.Blkmap
import InfixOS.Uboot.Mapping
import InfixOS.Uboot.Sysmem
import InfixOS.Uboot.Transfer
import InfixOS.Uboot.Pieces
import InfixOS.Uboot.Reading
import InfixOS.Uboot.Writing
import InfixOS.Keyed.Edits
import InfixOS.Yang.Lookup
import InfixOS.Yang.Schema
import InfixOS.Core.Reading
import InfixOS.Netdag.Entries
import InfixOS.Netdag.Addresses
import InfixOS.Netdag.Transitions
import InfixOS.Netdag.Readdressing
import InfixOS.Netdag.Recreation
import InfixOS.Netdag.Devices
import InfixOS.Netdag.Membership
import InfixOS.Netdag.Autoconf
import InfixOS.Netdag.Survival
import InfixOS.Core.Sides
import InfixOS.Boot.Factory
import InfixOS.Core.ShellLines
import InfixOS.IetfSystem.Datetime
import InfixOS.IetfSystem.Resolver
import InfixOS.IetfSystem.AuthKeys
import InfixOS.Inference.Candidate
import InfixOS.Inference.VlanId
import InfixOS.Inference.Order
import InfixOS.InfixDhcp.Buffer
import InfixOS.Uboot.Command
import InfixOS.NetTool.Passing
import InfixOS.NetTool.Recursion
import InfixOS.NetTool.AdminState
import InfixOS.Infamy.Topology
import InfixOS.Slots.Compaction
import InfixOS.Profeth.ArTable
import InfixOS.Profeth.MainTask
import InfixOS.Profeth.Callbacks
import InfixOS.Profeth.Delivery
import InfixOS.Profeth.Rounds
import InfixOS.Profeth.Device
import InfixOS.Profeth.ProcessData
import InfixOS.Profeth.Submodules
